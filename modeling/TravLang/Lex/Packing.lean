import TravLang.Lex.Compact
import TravLang.Lib.RowDisplacement
import TravLang.Stdlib.Array.Basic

/-!
# Packing of transition tables (`lex/compact.ml`)

Each `Shift` state is a row of 257 moves. The rows of the states overlap in the arrays `c_trans` and
`c_check`, where the second one says to which state an entry belongs. There are two such tables, one
for the targets of the moves and one for the addresses of their memory code.
-/

namespace TravLang.Compact

open Arrays (get set getAt)
open Lexing (MemoryAction)
open RowDisplacement Result

inductive Exn where
  | array (e : Arrays.Exn)
  /-- the bound on a loop, which is not reached -/
  | loopBound
  deriving DecidableEq, Repr

def ofArray {α : Type} : Except Arrays.Exn α → Except Exn α
  | .ok a => .ok a
  | .error e => .error (.array e)

/-! ## One row -/

/-- The variables of `most_frequent_elt` -/
structure Frequencies where
  frequencies : List (Int × Nat)
  maxFreq : Nat
  mostFreq : Int

def countElt (s : Frequencies) (e : Int) : Frequencies :=
  let r := (s.frequencies.lookup e).getD 1 + 1
  let frequencies := (e, r) :: s.frequencies
  if r > s.maxFreq then ⟨frequencies, r, e⟩ else { s with frequencies := frequencies }

def mostFrequentElt (v : List Int) : Except Exn Int := do
  let first ← ofArray (get v 0)
  return (v.foldl countElt ⟨[], 0, first⟩).mostFreq

/-- The local function `nondef`, on the elements from `i` on -/
def nondef (default : Int) (i : Nat) : List Int → List (Nat × Int)
  | [] => []
  | e :: v => if e = default then nondef default (i + 1) v else (i, e) :: nondef default (i + 1) v

def nonDefaultElements (default : Int) (v : List Int) : List (Nat × Int) := nondef default 0 v

/-! ## The arrays -/

/-- `t_compact` -/
structure CompactTable where
  trans : List Int
  check : List Int
  lastUsed : Nat

def createCompact : CompactTable := ⟨List.replicate 1024 0, List.replicate 1024 (-1), 0⟩

/-- `Array.blit a 0 b 0 n`; the second array after the copy -/
def blit (a b : List Int) (n : Nat) : Except Exn (List Int) :=
  if n ≤ a.length ∧ n ≤ b.length then .ok (a.take n ++ b.drop n)
  else .error (.array (.invalidArg "Array.blit"))

def growCompact (c : CompactTable) : Except Exn CompactTable := do
  let n := c.trans.length
  let trans ← blit c.trans (List.replicate (2 * n) 0) c.lastUsed
  let check ← blit c.check (List.replicate (2 * n) (-1)) c.lastUsed
  return { c with trans := trans, check := check }

/-- `while n > Array.length compact.c_trans do grow_compact compact done`; the first argument bounds
the number of rounds. -/
def growWhile : Nat → Nat → CompactTable → Except Exn CompactTable
  | 0, n, c => if n > c.trans.length then .error .loopBound else .ok c
  | rounds + 1, n, c =>
    if n > c.trans.length then do growWhile rounds n (← growCompact c) else .ok c

/-- The entries that the row needs are free. -/
def tryPack (c : CompactTable) (b : Nat) : List (Nat × Int) → Except Exn Bool
  | [] => .ok true
  | (pos, _) :: rem => do
    if (← ofArray (get c.check (b + pos))) = -1 then tryPack c b rem else return false

/-- The first place from `b` on where the row fits; the first argument bounds the recursion. -/
def packFrom (elements : List (Nat × Int)) : Nat → Nat → CompactTable →
    Except Exn (Nat × CompactTable)
  | 0, _, _ => .error .loopBound
  | rounds + 1, b, c => do
    let c ← growWhile (b + 257) (b + 257) c
    if ← tryPack c b elements then return (b, c) else packFrom elements rounds (b + 1) c

def writeEntry (stateNum : Int) (base : Nat) (c : CompactTable) (x : Nat × Int) :
    Except Exn CompactTable := do
  let trans ← ofArray (set c.trans (base + x.1) x.2)
  let check ← ofArray (set c.check (base + x.1) stateNum)
  return { c with trans := trans, check := check }

def doPack (stateNum : Int) (orig : List Int) (c : CompactTable) :
    Except Exn ((Nat × Int) × CompactTable) := do
  let default ← mostFrequentElt orig
  let elements := nonDefaultElements default orig
  let (base, c) ← packFrom elements (c.lastUsed + 1) 0 c
  let c ← elements.foldlM (writeEntry stateNum base) c
  return ((base, default), { c with lastUsed := max c.lastUsed (base + 257) })

/-! ## States -/

inductive AutomataMove where
  | backtrack
  | goto (n : Int)
  deriving DecidableEq, Repr

inductive AutomataTrans where
  | noRemember
  | remember (n : Int) (c : List TagAction)

inductive Automata where
  | perform (n : Int) (c : List TagAction)
  | shift (trans : AutomataTrans) (move : List (AutomataMove × List MemoryAction))

/-- The number that stands for a move -/
def AutomataMove.target : AutomataMove → Int
  | .backtrack => -1
  | .goto n => n

/-- The loop of `pack_moves`: the arrays `move_v` and `move_m` -/
def emitMoves : List (AutomataMove × List MemoryAction) → Tables → (List Int × List Int) × Tables
  | [], tables => (([], []), tables)
  | (act, c) :: moves, tables =>
    let (addr, tables) := emitMemCode c tables
    let ((moveV, moveM), tables) := emitMoves moves tables
    ((act.target :: moveV, (addr : Int) :: moveM), tables)

/-- The global variables: the code and its addresses, and the tables `trans` and `moves` -/
structure State where
  tables : Tables
  trans : CompactTable
  moves : CompactTable

def packMoves (stateNum : Int) (moveT : List (AutomataMove × List MemoryAction)) (st : State) :
    Except Exn (((Nat × Int) × (Nat × Int)) × State) :=
  if moveT.length < 257 then .error (.array .indexOutOfBounds)
  else do
    let ((moveV, moveM), tables) := emitMoves (moveT.take 257) st.tables
    let (pkTrans, cTrans) ← doPack stateNum moveV st.trans
    let (pkMoves, cMoves) ← doPack stateNum moveM st.moves
    return ((pkTrans, pkMoves), ⟨tables, cTrans, cMoves⟩)

/-- The entries of a state in the arrays of `compact_tables`, with their first values -/
structure Row where
  base : Int := 0
  backtrk : Int := -1
  default : Int := 0
  baseCode : Int := 0
  backtrkCode : Int := 0
  defaultCode : Int := 0

def compactState (i : Nat) (state : Automata) (st : State) : Except Exn (Row × State) :=
  match state with
  | .perform n c =>
    let (addr, tables) := emitTagCode c st.tables
    .ok ({ base := -(n + 1), baseCode := addr }, { st with tables := tables })
  | .shift tr move => do
    let (row, st) := (match tr with
      | .noRemember => ({}, st)
      | .remember n c =>
        let (addr, tables) := emitTagCode c st.tables
        ({ backtrk := n, backtrkCode := addr }, { st with tables := tables }) : Row × State)
    let (((bTrans, dTrans), (bMoves, dMoves)), st) ← packMoves i move st
    return ({ row with
      base := bTrans, default := dTrans, baseCode := bMoves, defaultCode := dMoves }, st)

def compactStates (i : Nat) : List Automata → State → Except Exn (List Row × State)
  | [], st => .ok ([], st)
  | state :: states, st => do
    let (row, st) ← compactState i state st
    let (rows, st) ← compactStates (i + 1) states st
    return (row :: rows, st)

structure LexTables where
  base : List Int
  backtrk : List Int
  default : List Int
  trans : List Int
  check : List Int
  baseCode : List Int
  backtrkCode : List Int
  defaultCode : List Int
  transCode : List Int
  checkCode : List Int
  code : List Nat

/-- `Array.sub a 0 n` -/
def sub (a : List Int) (n : Nat) : Except Exn (List Int) :=
  if n ≤ a.length then .ok (a.take n) else .error (.array (.invalidArg "Array.sub"))

/-- The record that `compact_tables` returns -/
def lexTables (rows : List Row) (code : List Nat) (cTrans cCheck cTransCode cCheckCode : List Int) :
    LexTables :=
  -- when there are no memory moves, the tables for them are not emitted
  let withCode := code.length > 1
  { base := rows.map (·.base)
    backtrk := rows.map (·.backtrk)
    default := rows.map (·.default)
    trans := cTrans
    check := cCheck
    baseCode := if withCode then rows.map (·.baseCode) else []
    backtrkCode := if withCode then rows.map (·.backtrkCode) else []
    defaultCode := if withCode then rows.map (·.defaultCode) else []
    transCode := if withCode then cTransCode else []
    checkCode := if withCode then cCheckCode else []
    code := if withCode then code else [] }

/-- The tables of the automaton, and those of the code before it is trimmed. The tables `trans` and
`moves` are empty at the start. -/
def compactTables (stateV : List Automata) (tables : Tables) : Except Exn (LexTables × Tables) := do
  let (rows, st) ← compactStates 0 stateV ⟨tables, createCompact, createCompact⟩
  let cTrans ← sub st.trans.trans st.trans.lastUsed
  let cCheck ← sub st.trans.check st.trans.lastUsed
  let cTransCode ← sub st.moves.trans st.moves.lastUsed
  let cCheckCode ← sub st.moves.check st.moves.lastUsed
  return (lexTables rows st.tables.code cTrans cCheck cTransCode cCheckCode, st.tables)

/-! ## The engine -/

/-- The next state for the character `c`, as the engine looks it up -/
def nextState (tbl : LexTables) (state : Nat) (c : Nat) : Except Arrays.Exn Int := do
  let base ← get tbl.base state
  if (← getAt tbl.check (base + c)) = state then getAt tbl.trans (base + c)
  else get tbl.default state

/-- The address of the memory code for the character `c` -/
def transitionCode (tbl : LexTables) (pstate : Nat) (c : Nat) : Except Arrays.Exn Int := do
  let baseCode ← get tbl.baseCode pstate
  if (← getAt tbl.checkCode (baseCode + c)) = pstate then getAt tbl.transCode (baseCode + c)
  else get tbl.defaultCode pstate

open List

/-! ## The arrays as a table of cells -/

/-- The state that owns an entry, and the value -/
def cell (c : CompactTable) : Comb Int Int := fun j =>
  match c.check[j]? with
  | some s => if s = -1 then none else some (s, c.trans[j]?.getD 0)
  | none => none

structure Valid (c : CompactTable) : Prop where
  length_eq : c.check.length = c.trans.length
  pos : 0 < c.trans.length
  lastUsed_le : c.lastUsed ≤ c.trans.length
  free : ∀ j, c.lastUsed ≤ j → cell c j = none

variable {c : CompactTable} {s default : Int} {x : Nat × Int} {row : List Int} {base pos k : Nat}
  {l : List MemoryAction} {t : Tables} {st : State} {state : Automata}

theorem valid_createCompact : Valid createCompact := by
  have hlen : createCompact.trans.length = 1024 := length_replicate
  refine ⟨by rw [hlen]; exact length_replicate, by omega, Nat.zero_le _, fun j _ => ?_⟩
  unfold cell createCompact
  rw [getElem?_replicate]
  split
  · next s hs =>
    split at hs
    · cases hs
      rfl
    · cases hs
  · rfl

theorem cell_eq_none_iff {j : Nat} (h : c.check[j]? = some s) :
    cell c j = none ↔ s = -1 := by
  unfold cell
  rw [h]
  by_cases hs : s = -1 <;> simp [hs]

/-- The arrays after `grow_compact` -/
def grown (c : CompactTable) : CompactTable where
  trans := c.trans.take c.lastUsed ++ (List.replicate (2 * c.trans.length) 0).drop c.lastUsed
  check := c.check.take c.lastUsed ++ (List.replicate (2 * c.trans.length) (-1)).drop c.lastUsed
  lastUsed := c.lastUsed

theorem growCompact_eq (h : Valid c) : growCompact c = .ok (grown c) := by
  have hused := h.lastUsed_le
  have hlen := h.length_eq
  have hcheck : blit c.check (List.replicate (2 * c.trans.length) (-1)) c.lastUsed = .ok _ :=
    if_pos (by rw [length_replicate]; omega)
  have htrans : blit c.trans (List.replicate (2 * c.trans.length) 0) c.lastUsed = .ok _ :=
    if_pos (by rw [length_replicate]; omega)
  rw [growCompact, htrans, ok_bind, hcheck]
  rfl

theorem cell_grown (h : Valid c) (j : Nat) : cell (grown c) j = cell c j := by
  have hused := h.lastUsed_le
  have hlen := h.length_eq
  unfold cell grown
  by_cases hj : j < c.lastUsed
  · simp only
    rw [getElem?_append_left (by rw [length_take]; omega),
      getElem?_append_left (by rw [length_take]; omega), getElem?_take_of_lt hj,
      getElem?_take_of_lt hj]
  · have hfree := h.free j (by omega)
    unfold cell at hfree
    rw [hfree]
    simp only
    rw [getElem?_append_right (by rw [length_take]; omega), getElem?_drop,
      getElem?_replicate]
    split
    · next s hs =>
      split at hs
      · cases hs
        rfl
      · cases hs
    · rfl

theorem length_grown (h : Valid c) : (grown c).trans.length = 2 * c.trans.length := by
  have := h.lastUsed_le
  simp only [grown, length_append, length_take, length_drop, length_replicate]
  omega

theorem valid_grown (h : Valid c) : Valid (grown c) := by
  have hused := h.lastUsed_le
  have hpos := h.pos
  have hlen := length_grown h
  refine ⟨?_, by omega, ?_, fun j hj => ?_⟩
  · rw [hlen, grown]
    simp only [length_append, length_take, length_drop, length_replicate,
      h.length_eq]
    omega
  · rw [hlen]
    show c.lastUsed ≤ _
    omega
  · rw [cell_grown h]
    exact h.free j hj

theorem growWhile_spec (n : Nat) : ∀ (rounds : Nat) {c : CompactTable}, Valid c →
    n ≤ rounds + c.trans.length →
    ∃ c', growWhile rounds n c = .ok c' ∧ Valid c' ∧ c'.lastUsed = c.lastUsed ∧
      n ≤ c'.trans.length ∧ ∀ j, cell c' j = cell c j
  | 0, c, h, hrounds => ⟨c, if_neg (by omega), h, rfl, by omega, fun j => rfl⟩
  | rounds + 1, c, h, hrounds => by
    rw [growWhile]
    split
    · have hpos := h.pos
      have hlen := length_grown h
      obtain ⟨c', hrun, hvalid, hused, hle, hcell⟩ :=
        growWhile_spec n rounds (valid_grown h) (by omega)
      exact ⟨c', by rw [growCompact_eq h, ok_bind, hrun], hvalid, hused, hle,
        fun j => by rw [hcell, cell_grown h]⟩
    · next hn => exact ⟨c, rfl, h, rfl, by omega, fun j => rfl⟩

theorem tryPack_spec (b : Nat) : ∀ (elements : List (Nat × Int)),
    (∀ x ∈ elements, b + x.1 < c.check.length) →
    ∃ r, tryPack c b elements = .ok r ∧ (r = true ↔ ∀ x ∈ elements, cell c (b + x.1) = none)
  | [], _ => ⟨true, rfl, by simp⟩
  | (pos, v) :: rem, hlt => by
    obtain ⟨hpos, hrem⟩ := forall_mem_cons.mp hlt
    have hget : c.check[b + pos]? = some c.check[b + pos] := getElem?_eq_getElem hpos
    rw [tryPack, Arrays.get_ok hget]
    simp only [ofArray, ok_bind, forall_mem_cons, cell_eq_none_iff hget]
    split
    · next heq =>
      obtain ⟨r, hrun, hr⟩ := tryPack_spec b rem hrem
      exact ⟨r, hrun, by rw [hr]; exact (and_iff_right heq).symm⟩
    · next hne => exact ⟨false, rfl, by simp [hne]⟩

section

variable {elements : List (Nat × Int)} (helements : ∀ x ∈ elements, x.1 < 257)

include helements

/-- The place `b` is tried. -/
theorem packFrom_round (rounds b : Nat) (h : Valid c) :
    ∃ c' r, packFrom elements (rounds + 1) b c =
        (if r then .ok (b, c') else packFrom elements rounds (b + 1) c') ∧
      Valid c' ∧ c'.lastUsed = c.lastUsed ∧ b + 257 ≤ c'.trans.length ∧
      (∀ j, cell c' j = cell c j) ∧ (r = true ↔ ∀ x ∈ elements, cell c' (b + x.1) = none) := by
  obtain ⟨c', hgrow, h', hused, hlen, hcell⟩ := growWhile_spec (b + 257) (b + 257) h (by omega)
  obtain ⟨r, htry, hr⟩ := tryPack_spec (c := c') b elements fun x hx => by
    have := helements x hx
    rw [h'.length_eq]
    omega
  refine ⟨c', r, ?_, h', hused, hlen, hcell, hr⟩
  rw [packFrom, hgrow, ok_bind, htry, ok_bind]
  rfl

/-- **A place is found at the latest behind all entries in use.** -/
theorem packFrom_spec (rounds b : Nat) (h : Valid c) (hrounds : c.lastUsed ≤ rounds + b) :
    ∃ b' c', packFrom elements (rounds + 1) b c = .ok (b', c') ∧ Valid c' ∧
      c'.lastUsed = c.lastUsed ∧ b' + 257 ≤ c'.trans.length ∧ (∀ j, cell c' j = cell c j) ∧
      ∀ x ∈ elements, cell c' (b' + x.1) = none := by
  induction rounds generalizing b c with
  | zero =>
    obtain ⟨c', r, hrun, h', hused, hlen, hcell, hr⟩ := packFrom_round helements 0 b h
    have htrue : r = true := hr.mpr fun x _ => h'.free _ (by omega)
    rw [if_pos htrue] at hrun
    exact ⟨b, c', hrun, h', hused, hlen, hcell, hr.mp htrue⟩
  | succ rounds ih =>
    obtain ⟨c', r, hrun, h', hused, hlen, hcell, hr⟩ := packFrom_round helements (rounds + 1) b h
    cases r with
    | true => exact ⟨b, c', hrun, h', hused, hlen, hcell, hr.mp rfl⟩
    | false =>
      obtain ⟨b', c'', hrun', h'', hused', hlen', hcell', hfree⟩ := ih (b + 1) h' (by omega)
      exact ⟨b', c'', hrun.trans hrun', h'', by rw [hused', hused], hlen',
        fun j => by rw [hcell', hcell], hfree⟩

end

/-! ## Writing a row -/

theorem mem_nondef : ∀ {i : Nat} {v : List Int},
    x ∈ nondef default i v ↔ i ≤ x.1 ∧ v[x.1 - i]? = some x.2 ∧ x.2 ≠ default
  | i, [] => by simp [nondef]
  | i, e :: v => by
    have hcons : i ≤ x.1 ∧ (e :: v)[x.1 - i]? = some x.2 ∧ x.2 ≠ default ↔
        (x = (i, e) ∧ e ≠ default) ∨ (i + 1 ≤ x.1 ∧ v[x.1 - (i + 1)]? = some x.2 ∧
          x.2 ≠ default) := by
      obtain ⟨pos, w⟩ := x
      by_cases hpos : pos = i
      · subst hpos
        simp only [le_refl, Nat.sub_self, getElem?_cons_zero, Option.some.injEq, true_and,
          Prod.mk.injEq]
        constructor
        · rintro ⟨rfl, hw⟩
          exact .inl ⟨rfl, hw⟩
        · rintro (⟨rfl, hw⟩ | ⟨hle, _⟩)
          · exact ⟨rfl, hw⟩
          · omega
      · by_cases hlt : i < pos
        · have hsucc : pos - i = pos - (i + 1) + 1 := by omega
          simp [hsucc, hpos]
          omega
        · simp [hpos]
          omega
    rw [hcons, nondef]
    split
    · next heq => simp [mem_nondef, heq]
    · next hne => simp [mem_nondef, hne]

theorem pairwise_nondef : ∀ {i : Nat} {v : List Int},
    (nondef default i v).Pairwise fun x y => x.1 < y.1
  | i, [] => .nil
  | i, e :: v => by
    rw [nondef]
    split
    · exact pairwise_nondef
    · refine .cons (fun y hy => ?_) pairwise_nondef
      have := (mem_nondef.mp hy).1
      omega

/-- One entry -/
theorem writeEntry_spec (hlen : c.check.length = c.trans.length) (hs : s ≠ -1) (base : Nat)
    (hx : base + x.1 < c.trans.length) :
    ∃ c', writeEntry s base c x = .ok c' ∧ c'.trans.length = c.trans.length ∧
      c'.check.length = c.check.length ∧ c'.lastUsed = c.lastUsed ∧
      cell c' (base + x.1) = some (s, x.2) ∧ ∀ j, j ≠ base + x.1 → cell c' j = cell c j := by
  have hx' : base + x.1 < c.check.length := by omega
  refine ⟨⟨c.trans.set (base + x.1) x.2, c.check.set (base + x.1) s, c.lastUsed⟩, ?_,
    length_set, length_set, rfl, ?_, fun j hj => ?_⟩
  · rw [writeEntry, Arrays.set_ok hx, Arrays.set_ok hx']
    rfl
  · simp only [cell, getElem?_set_self hx, getElem?_set_self hx', Option.getD_some,
      if_neg hs]
  · simp only [cell, getElem?_set_ne (Ne.symm hj)]

theorem writeEntries_spec (hlen : c.check.length = c.trans.length) (hs : s ≠ -1) (base : Nat)
    {elements : List (Nat × Int)} (hpairs : elements.Pairwise fun x y => x.1 < y.1)
    (hroom : ∀ x ∈ elements, base + x.1 < c.trans.length) :
    ∃ c', elements.foldlM (writeEntry s base) c = .ok c' ∧ c'.trans.length = c.trans.length ∧
      c'.check.length = c.check.length ∧ c'.lastUsed = c.lastUsed ∧
      (∀ x ∈ elements, cell c' (base + x.1) = some (s, x.2)) ∧
      ∀ j, (∀ x ∈ elements, j ≠ base + x.1) → cell c' j = cell c j := by
  refine foldlM_rule (I := fun (done : List (Nat × Int)) (c' : CompactTable) =>
    c'.trans.length = c.trans.length ∧ c'.check.length = c.check.length ∧ c'.lastUsed = c.lastUsed ∧
    (∀ x ∈ done, cell c' (base + x.1) = some (s, x.2)) ∧
    ∀ j, (∀ x ∈ done, j ≠ base + x.1) → cell c' j = cell c j) ?_
    ⟨rfl, rfl, rfl, nofun, fun j _ => rfl⟩
  rintro done x rest c₁ hl ⟨htrans, hcheck, hused, hdone, hother⟩
  have hmem : x ∈ elements := hl ▸ mem_append_right done mem_cons_self
  obtain ⟨c₂, hwrite, htrans', hcheck', hused', hnew, hsame⟩ := writeEntry_spec (c := c₁)
    (by omega) hs base (x := x) (by have := hroom x hmem; omega)
  have hlt : ∀ y ∈ done, y.1 < x.1 := by
    rw [hl] at hpairs
    exact fun y hy => (pairwise_append.mp hpairs).2.2 y hy x mem_cons_self
  refine ⟨c₂, hwrite, by omega, by omega, by omega, ?_, fun j hj => ?_⟩
  · intro y hy
    rcases mem_append.mp hy with hy | hy
    · rw [hsame _ (by have := hlt y hy; omega), hdone y hy]
    · rw [mem_singleton.mp hy, hnew]
  · rw [forall_mem_append] at hj
    rw [hsame j (hj.2 x mem_cons_self), hother j hj.1]

/-- The row of a state can be read back. -/
structure RowIn (c : CompactTable) (s : Int) (base : Nat) (default : Int) (row : List Int) :
    Prop where
  room : base + 257 ≤ c.lastUsed
  lookup_eq : ∀ (pos : Nat) (v : Int), row[pos]? = some v → lookup (cell c) base default s pos = v

/-- **`do_pack` stores its row and keeps the others.** -/
theorem doPack_spec (h : Valid c) (hs : s ≠ -1) (orig : List Int) (horig : orig.length = 257)
    (hfresh : ∀ j v, cell c j ≠ some (s, v)) :
    ∃ base default c', doPack s orig c = .ok ((base, default), c') ∧ Valid c' ∧
      RowIn c' s base default orig ∧ c.lastUsed ≤ c'.lastUsed ∧ Claims s (cell c) (cell c') := by
  obtain ⟨first, hfirst⟩ : ∃ first, orig[0]? = some first :=
    ⟨_, getElem?_eq_getElem (by omega)⟩
  generalize hdefault : (orig.foldl countElt ⟨[], 0, first⟩).mostFreq = default
  have hmost : mostFrequentElt orig = .ok default := by
    rw [mostFrequentElt, Arrays.get_ok hfirst, ← hdefault]
    rfl
  have hmem : ∀ pos v, (pos, v) ∈ nonDefaultElements default orig ↔
      orig[pos]? = some v ∧ v ≠ default := by
    intro pos v
    rw [nonDefaultElements, mem_nondef]
    simp
  have hpos : ∀ x ∈ nonDefaultElements default orig, x.1 < 257 := by
    intro x hx
    have := (List.getElem?_eq_some_iff.mp ((hmem x.1 x.2).mp hx).1).1
    omega
  obtain ⟨base, c₁, hpack, h₁, hused₁, hroom, hcell₁, hfree⟩ :=
    packFrom_spec hpos c.lastUsed 0 h (by omega)
  obtain ⟨c₂, hwrite, htrans, hcheck, hused₂, hnew, hother⟩ :=
    writeEntries_spec h₁.length_eq hs base
      (show (nonDefaultElements default orig).Pairwise _ from pairwise_nondef)
      (show ∀ x ∈ nonDefaultElements default orig, base + x.1 < c₁.trans.length from
        fun x hx => by have := hpos x hx; omega)
  have hlen₁ := h₁.length_eq
  have hclaims : Claims s (cell c) (cell c₂) := by
    intro j
    by_cases hj : ∃ x ∈ nonDefaultElements default orig, j = base + x.1
    · obtain ⟨x, hx, rfl⟩ := hj
      exact .inr ⟨by rw [← hcell₁, hfree x hx], x.2, hnew x hx⟩
    · rw [← hcell₁]
      exact .inl (hother j fun x hx heq => hj ⟨x, hx, heq⟩)
  have hcell : cell { c₂ with lastUsed := max c₂.lastUsed (base + 257) } = cell c₂ := rfl
  refine ⟨base, default, { c₂ with lastUsed := max c₂.lastUsed (base + 257) }, ?_,
    ⟨by dsimp only; omega, by dsimp only; omega, ?_, fun j hj => ?_⟩, ⟨?_, fun pos v hv => ?_⟩, ?_,
    hclaims⟩
  · simp only [doPack, hmost, ok_bind, hpack, hwrite, pure_eq_ok]
  · have := h₁.lastUsed_le
    dsimp only
    omega
  · dsimp only at hj
    rw [hcell, hother j fun x hx => by have := hpos x hx; omega]
    exact h₁.free j (by omega)
  · dsimp only
    omega
  · rw [hcell]
    have hv' : orig[pos]?.getD 0 = v := by rw [hv, Option.getD_some]
    rw [← hv']
    refine lookup_eq_of_owned (fun pos => orig[pos]?.getD 0) (fun hne => ?_) fun heq w hw => ?_
    · have := hnew (pos, v) ((hmem pos v).mpr ⟨hv, hv' ▸ hne⟩)
      rw [this, hv']
    · -- the cell was free or belongs to another state
      rw [hother _ fun x hx heq' => ?_, hcell₁] at hw
      · exact hfresh _ w hw
      · obtain ⟨hx1, hx2⟩ := (hmem x.1 x.2).mp hx
        rw [show x.1 = pos by omega, hv] at hx1
        cases hx1
        exact hx2 (hv'.symm.trans heq)
  · dsimp only
    omega

theorem RowIn.mono {c c' : CompactTable} {s' : Int} (h : RowIn c s base default row)
    (hclaims : Claims s' (cell c) (cell c')) (hne : s ≠ s') (hused : c.lastUsed ≤ c'.lastUsed) :
    RowIn c' s base default row :=
  ⟨Nat.le_trans h.room hused, fun pos v hv => by rw [hclaims.lookup_eq hne, h.lookup_eq pos v hv]⟩

/-- What the engine finds in the arrays is what is looked up in the cells. -/
theorem lookup_cell (h : Valid c) (hs : s ≠ -1) (default : Int) (hlt : base + pos < c.lastUsed) :
    ∃ s' v, (c.check.take c.lastUsed)[base + pos]? = some s' ∧
      (c.trans.take c.lastUsed)[base + pos]? = some v ∧
      lookup (cell c) base default s pos = if s' = s then v else default := by
  have hused := h.lastUsed_le
  have hlen := h.length_eq
  have hcheck : c.check[base + pos]? = some c.check[base + pos] :=
    getElem?_eq_getElem (by omega)
  have htrans : c.trans[base + pos]? = some c.trans[base + pos] :=
    getElem?_eq_getElem (by omega)
  refine ⟨_, _, by rw [getElem?_take_of_lt hlt, hcheck],
    by rw [getElem?_take_of_lt hlt, htrans], ?_⟩
  simp only [RowDisplacement.lookup, cell, hcheck, htrans, Option.getD_some]
  by_cases hfree : c.check[base + pos] = -1
  · rw [if_pos hfree, hfree, if_neg (Ne.symm hs)]
  · rw [if_neg hfree]

/-! ## The addresses of memory code -/

/-- Addresses stay what they are. -/
def Tables.Le (t t' : Tables) : Prop :=
  ∀ c r, t.memory.lookup c = some r → t'.memory.lookup c = some r

theorem le_memEmitCode (c : List Nat) (t : Tables) : t.Le (memEmitCode c t).2 := by
  intro c' r h
  unfold memEmitCode
  split
  · exact h
  · next hnone =>
    show ((c, t.code.length) :: t.memory).lookup c' = some r
    have hne : (c' == c) = false := by
      by_contra hc
      rw [Bool.not_eq_false, beq_iff_eq] at hc
      rw [hc, hnone] at h
      cases h
    rw [lookup_cons, hne]
    exact h

theorem lookup_memEmitCode (c : List Nat) (t : Tables) :
    (memEmitCode c t).2.memory.lookup c = some (memEmitCode c t).1 := by
  unfold memEmitCode
  split
  · next r hr => exact hr
  · exact lookup_cons_self

/-- `addr` is the address of the code for the memory actions `l`. -/
def IsAddress (t : Tables) (l : List MemoryAction) (addr : Int) : Prop :=
  ∃ r : Nat, addr = r ∧ t.memory.lookup (l.foldr insMem []) = some r

theorem IsAddress.mono {t' : Tables} {addr : Int} (h : IsAddress t l addr) (hle : t.Le t') :
    IsAddress t' l addr := by
  obtain ⟨r, hr, hlookup⟩ := h
  exact ⟨r, hr, hle _ _ hlookup⟩

theorem emitMoves_spec : ∀ (moves : List (AutomataMove × List MemoryAction)) (t : Tables),
    (emitMoves moves t).1.1 = moves.map (·.1.target) ∧ t.Le (emitMoves moves t).2 ∧
      List.Forall₂ (fun m addr => IsAddress (emitMoves moves t).2 m.2 addr) moves
        (emitMoves moves t).1.2
  | [], t => ⟨rfl, fun _ _ h => h, .nil⟩
  | (act, c) :: moves, t => by
    obtain ⟨htargets, hle, haddrs⟩ := emitMoves_spec moves (emitMemCode c t).2
    refine ⟨?_, fun c' r h => hle c' r (le_memEmitCode _ t c' r h), .cons ?_ haddrs⟩
    · simp only [emitMoves, map_cons, htargets]
    · exact ⟨(emitMemCode c t).1, rfl, hle _ _ (lookup_memEmitCode _ t)⟩

/-! ## The states -/

/-- The rows of `Shift` states are in the tables. -/
def RowOk (st : State) (k : Nat) (state : Automata) (row : Row) : Prop :=
  match state with
  | .perform _ _ => True
  | .shift _ move => ∃ (bTrans bMoves : Nat) (moveM : List Int),
    row.base = bTrans ∧ row.baseCode = bMoves ∧
    RowIn st.trans k bTrans row.default ((move.take 257).map (·.1.target)) ∧
    RowIn st.moves k bMoves row.defaultCode moveM ∧
    List.Forall₂ (fun m addr => IsAddress st.tables m.2 addr) (move.take 257) moveM

/-- The tables hold the rows of states below `k` only. -/
structure Packed (k : Nat) (st : State) : Prop where
  validTrans : Valid st.trans
  validMoves : Valid st.moves
  ownerTrans : ∀ j s v, cell st.trans j = some (s, v) → s < k
  ownerMoves : ∀ j s v, cell st.moves j = some (s, v) → s < k

/-- The move arrays have an entry for each character. -/
def WellSized : Automata → Prop
  | .perform _ _ => True
  | .shift _ move => 257 ≤ move.length

/-- What has been stored is kept. -/
structure Extends (k : Nat) (st st' : State) : Prop where
  tables : st.tables.Le st'.tables
  rowOk : ∀ k' < k, ∀ state row, RowOk st k' state row → RowOk st' k' state row

theorem rowOk_of_same {row : Row} {tables : Tables} (hle : st.tables.Le tables)
    (h : RowOk st k state row) :
    RowOk { st with tables := tables } k state row := by
  cases state with
  | perform n c => trivial
  | shift tr move =>
    obtain ⟨bT, bM, moveM, hb, hbc, htrans, hmoves, haddrs⟩ := h
    exact ⟨bT, bM, moveM, hb, hbc, htrans, hmoves, haddrs.imp fun _ _ h => h.mono hle⟩

theorem packMoves_spec (h : Packed k st) {move : List (AutomataMove × List MemoryAction)}
    (hmove : 257 ≤ move.length) :
    ∃ bT dT bM dM moveM st', packMoves k move st = .ok (((bT, dT), (bM, dM)), st') ∧
      Packed (k + 1) st' ∧ Extends k st st' ∧
      RowIn st'.trans k bT dT ((move.take 257).map (·.1.target)) ∧
      RowIn st'.moves k bM dM moveM ∧
      List.Forall₂ (fun m addr => IsAddress st'.tables m.2 addr) (move.take 257) moveM := by
  obtain ⟨htargets, hle, haddrs⟩ := emitMoves_spec (move.take 257) st.tables
  have hlen : (move.take 257).length = 257 := length_take_of_le hmove
  have hk : (k : Int) ≠ -1 := by omega
  obtain ⟨bT, dT, cTrans, hpackT, hvalidT, hrowT, husedT, hclaimsT⟩ := doPack_spec h.validTrans hk
    (emitMoves (move.take 257) st.tables).1.1 (by rw [htargets, length_map, hlen])
    fun j v hj => Int.lt_irrefl _ (h.ownerTrans j k v hj)
  obtain ⟨bM, dM, cMoves, hpackM, hvalidM, hrowM, husedM, hclaimsM⟩ := doPack_spec h.validMoves hk
    (emitMoves (move.take 257) st.tables).1.2 (by rw [← haddrs.length_eq, hlen])
    fun j v hj => Int.lt_irrefl _ (h.ownerMoves j k v hj)
  have howner : ∀ {t t' : Comb Int Int}, Claims (k : Int) t t' →
      (∀ j s v, t j = some (s, v) → s < k) → ∀ j s v, t' j = some (s, v) → s < (k + 1 : Nat) := by
    intro t t' hclaims ht j s v hj
    rcases hclaims j with heq | ⟨_, w, hw⟩
    · have := ht j s v (heq ▸ hj)
      omega
    · rw [hw] at hj
      cases hj
      omega
  refine ⟨bT, dT, bM, dM, _, ⟨(emitMoves (move.take 257) st.tables).2, cTrans, cMoves⟩, ?_,
    ⟨hvalidT, hvalidM, howner hclaimsT h.ownerTrans, howner hclaimsM h.ownerMoves⟩,
    ⟨hle, fun k' hk' state row hrow => ?_⟩, htargets ▸ hrowT, hrowM, haddrs⟩
  · rw [packMoves, if_neg (by omega)]
    simp only [hpackT, ok_bind, hpackM, pure_eq_ok]
  · cases state with
    | perform n c => trivial
    | shift tr move' =>
      obtain ⟨bT', bM', moveM', hb, hbc, htrans, hmoves, haddrs'⟩ := hrow
      have hne : (k' : Int) ≠ k := by omega
      exact ⟨bT', bM', moveM', hb, hbc, htrans.mono hclaimsT hne husedT,
        hmoves.mono hclaimsM hne husedM, haddrs'.imp fun _ _ h => h.mono hle⟩

theorem Extends.trans {k' : Nat} {st' st'' : State} (h : Extends k st st')
    (h' : Extends k' st' st'') (hle : k ≤ k') : Extends k st st'' :=
  ⟨fun c r hr => h'.tables c r (h.tables c r hr),
    fun i hi state row hrow => h'.rowOk i (Nat.lt_of_lt_of_le hi hle) state row
      (h.rowOk i hi state row hrow)⟩

/-- The code of a tag changes no row. -/
theorem extends_emitTagCode (k : Nat) (c : List TagAction) (st : State) :
    Extends k st { st with tables := (emitTagCode c st.tables).2 } :=
  ⟨le_memEmitCode _ _, fun _ _ _ _ hrow => rowOk_of_same (le_memEmitCode _ _) hrow⟩

theorem compactState_spec (h : Packed k st) (hstate : WellSized state) :
    ∃ row st', compactState k state st = .ok (row, st') ∧ Packed (k + 1) st' ∧ Extends k st st' ∧
      RowOk st' k state row := by
  cases state with
  | perform n c =>
    refine ⟨_, _, rfl, ⟨h.validTrans, h.validMoves, fun j s v hj => ?_, fun j s v hj => ?_⟩,
      extends_emitTagCode k c st, trivial⟩
    · have := h.ownerTrans j s v hj
      omega
    · have := h.ownerMoves j s v hj
      omega
  | shift tr move =>
    cases tr with
    | noRemember =>
      obtain ⟨bT, dT, bM, dM, moveM, st', hpack, hpacked, hext, htrans, hmoves, haddrs⟩ :=
        packMoves_spec h hstate
      refine ⟨{ base := bT, default := dT, baseCode := bM, defaultCode := dM }, st', ?_, hpacked,
        hext, bT, bM, moveM, rfl, rfl, htrans, hmoves, haddrs⟩
      simp only [compactState, hpack, ok_bind, pure_eq_ok]
    | remember n c =>
      have h' : Packed k { st with tables := (emitTagCode c st.tables).2 } :=
        ⟨h.validTrans, h.validMoves, h.ownerTrans, h.ownerMoves⟩
      obtain ⟨bT, dT, bM, dM, moveM, st', hpack, hpacked, hext, htrans, hmoves, haddrs⟩ :=
        packMoves_spec h' hstate
      refine ⟨⟨bT, n, dT, bM, (emitTagCode c st.tables).1, dM⟩, st', ?_, hpacked,
        (extends_emitTagCode k c st).trans hext (Nat.le_refl k), bT, bM, moveM, rfl, rfl, htrans,
        hmoves, haddrs⟩
      simp only [compactState, hpack, ok_bind, pure_eq_ok]

/-- **The rows of all states are in the tables at the end.** -/
theorem compactStates_spec : ∀ (states : List Automata) (i : Nat) {st : State}, Packed i st →
    (∀ state ∈ states, WellSized state) →
    ∃ rows st', compactStates i states st = .ok (rows, st') ∧ Packed (i + states.length) st' ∧
      Extends i st st' ∧ rows.length = states.length ∧
      ∀ (t : Nat) state row, states[t]? = some state → rows[t]? = some row →
        RowOk st' (i + t) state row
  | [], i, st, h, _ => ⟨[], st, rfl, h, ⟨fun _ _ h => h, fun _ _ _ _ h => h⟩, rfl,
      fun t state row hstate => by simp at hstate⟩
  | state :: states, i, st, h, hsized => by
    obtain ⟨hstate, hrest⟩ := forall_mem_cons.mp hsized
    obtain ⟨row, st₁, hrun, h₁, hext₁, hrow⟩ := compactState_spec h hstate
    obtain ⟨rows, st₂, hruns, h₂, hext₂, hlen, hrows⟩ := compactStates_spec states (i + 1) h₁ hrest
    refine ⟨row :: rows, st₂, ?_, ?_, hext₁.trans hext₂ (Nat.le_succ i), by simp [hlen], ?_⟩
    · simp only [compactStates, hrun, ok_bind, hruns, pure_eq_ok]
    · rwa [length_cons, ← Nat.add_assoc, Nat.add_right_comm]
    · intro t state' row' hstate' hrow'
      cases t with
      | zero =>
        rw [getElem?_cons_zero, Option.some.injEq] at hstate' hrow'
        subst hstate' hrow'
        exact hext₂.rowOk i (Nat.lt_succ_self i) state row hrow
      | succ t =>
        rw [getElem?_cons_succ] at hstate' hrow'
        have := hrows t state' row' hstate' hrow'
        rwa [Nat.add_right_comm, Nat.add_assoc] at this

/-! ## The tables -/

/-- A row is found by the engine, with all indices in range. -/
theorem find_row (h : Valid c) {base default : List Int} {b : Nat} {d v : Int}
    (hrow : RowIn c k b d row) (hv : row[pos]? = some v) (hpos : pos < 257)
    (hb : base[k]? = some (b : Int)) (hd : default[k]? = some d) :
    (do
      let base ← get base k
      if (← getAt (c.check.take c.lastUsed) (base + pos)) = k then
        getAt (c.trans.take c.lastUsed) (base + pos)
      else get default k) = .ok v := by
  have hroom := hrow.room
  obtain ⟨s', w, hcheck, htrans, hlookup⟩ := lookup_cell h (s := k) (by omega) d
    (show b + pos < c.lastUsed by omega)
  have hcast : (b : Int) + pos = ((b + pos : Nat) : Int) := by omega
  rw [Arrays.get_ok hb, ok_bind, hcast, Arrays.getAt_ok hcheck, ok_bind, Arrays.getAt_ok htrans,
    Arrays.get_ok hd, ← hrow.lookup_eq pos v hv, hlookup]
  split <;> rfl

theorem foldr_insMem_eq_nil (h : l.foldr insMem [] = []) : l = [] := by
  cases l with
  | nil => rfl
  | cons mv l => cases mv <;> cases h

/-- Without any code but the empty one, all memory moves are empty. -/
theorem eq_nil_of_code (hcode : t.code.length ≤ 1) {r : Nat}
    (h : t.memory.lookup (l.foldr insMem []) = some r) : l = [] ∧ r = 0 := by
  have hle := (t.stored _ r h).length_le
  rw [length_append, length_singleton, length_drop] at hle
  exact ⟨foldr_insMem_eq_nil (eq_nil_of_length_eq_zero (by omega)), by omega⟩

/-- **The tables give back the moves of the states.** The memory code of a move stands at the
address that is found. When there is no memory move at all, the tables of code are empty. -/
theorem compactTables_lossless (stateV : List Automata) (tables : Tables)
    (hsized : ∀ state ∈ stateV, WellSized state) :
    ∃ tbl t, compactTables stateV tables = .ok (tbl, t) ∧
      ∀ (i : Nat) tr move, stateV[i]? = some (.shift tr move) →
        ∀ (c : Nat) act l, c ≤ 256 → move[c]? = some (act, l) →
          nextState tbl i c = .ok act.target ∧
          (1 < t.code.length → tbl.code = t.code ∧ ∃ r : Nat, transitionCode tbl i c = .ok r ∧
            t.memory.lookup (l.foldr insMem []) = some r ∧
            l.foldr insMem [] ++ [0xff] <+: tbl.code.drop r) ∧
          (t.code.length ≤ 1 → l = [] ∧ t.memory.lookup [] = some 0 ∧ tbl.baseCode = [] ∧
            tbl.defaultCode = [] ∧ tbl.transCode = [] ∧ tbl.checkCode = [] ∧ tbl.backtrkCode = [] ∧
            tbl.code = []) := by
  have hempty : Packed 0 ⟨tables, createCompact, createCompact⟩ := by
    refine ⟨valid_createCompact, valid_createCompact, fun j s v hj => ?_, fun j s v hj => ?_⟩ <;>
      exact nomatch (valid_createCompact.free j (Nat.zero_le j)).symm.trans hj
  obtain ⟨rows, st, hrun, hpacked, _, hlen, hrows⟩ := compactStates_spec stateV 0 hempty hsized
  have hsub : ∀ {c : CompactTable}, Valid c →
      sub c.trans c.lastUsed = .ok (c.trans.take c.lastUsed) ∧
      sub c.check c.lastUsed = .ok (c.check.take c.lastUsed) := fun h =>
    ⟨if_pos h.lastUsed_le, if_pos (by rw [h.length_eq]; exact h.lastUsed_le)⟩
  obtain ⟨hsubT, hsubC⟩ := hsub hpacked.validTrans
  obtain ⟨hsubMT, hsubMC⟩ := hsub hpacked.validMoves
  refine ⟨lexTables rows st.tables.code (st.trans.trans.take st.trans.lastUsed)
    (st.trans.check.take st.trans.lastUsed) (st.moves.trans.take st.moves.lastUsed)
    (st.moves.check.take st.moves.lastUsed), st.tables, ?_, ?_⟩
  · simp only [compactTables, hrun, ok_bind, hsubT, hsubC, hsubMT, hsubMC, pure_eq_ok]
  intro i tr move hi c act l hc hmove
  have hlt : i < rows.length := by rw [hlen]; exact (List.getElem?_eq_some_iff.mp hi).1
  obtain ⟨bT, bM, moveM, hb, hbc, htrans, hmoves, haddrs⟩ :=
    hrows i _ _ hi (getElem?_eq_getElem hlt)
  rw [Nat.zero_add] at htrans hmoves
  have hmove' : (move.take 257)[c]? = some (act, l) := by
    rw [getElem?_take_of_lt (by omega), hmove]
  have hfield : ∀ f : Row → Int, (rows.map f)[i]? = some (f rows[i]) := fun f => by
    rw [getElem?_map, getElem?_eq_getElem hlt, Option.map_some]
  obtain ⟨addr, haddr, r, rfl, hr⟩ : ∃ addr, moveM[c]? = some addr ∧
      IsAddress st.tables l addr := by
    obtain ⟨hlt₁, hget₁⟩ := List.getElem?_eq_some_iff.mp hmove'
    have hlt₂ : c < moveM.length := haddrs.length_eq ▸ hlt₁
    have h := (forall₂_iff_get.mp haddrs).2 c hlt₁ hlt₂
    rw [get_eq_getElem, hget₁] at h
    exact ⟨_, getElem?_eq_getElem hlt₂, h⟩
  refine ⟨?_, fun hcode => ⟨if_pos hcode, r, ?_, hr, ?_⟩, fun hcode => ?_⟩
  · refine find_row hpacked.validTrans htrans ?_ (by omega) ((hfield _).trans (by rw [hb]))
      (hfield _)
    rw [getElem?_map, hmove', Option.map_some]
  · simp only [transitionCode, lexTables, gt_iff_lt, if_pos hcode]
    exact find_row hpacked.validMoves hmoves haddr (by omega) ((hfield _).trans (by rw [hbc]))
      (hfield _)
  · simp only [lexTables, gt_iff_lt, if_pos hcode]
    exact st.tables.stored _ r hr
  · obtain ⟨rfl, rfl⟩ := eq_nil_of_code hcode hr
    have hnot : ¬ st.tables.code.length > 1 := by omega
    exact ⟨rfl, hr, if_neg hnot, if_neg hnot, if_neg hnot, if_neg hnot, if_neg hnot, if_neg hnot⟩

/-- A state that goes on at the letter `a` and keeps the position in the cell 0, and the one that
accepts. -/
theorem compactTables_lossless_loop : ∃ tbl t,
    compactTables [.shift .noRemember (List.replicate 97 (.backtrack, []) ++
      (.goto 1, [.set 0]) :: List.replicate 159 (.backtrack, [])), .perform 0 []] initial =
        .ok (tbl, t) ∧
    nextState tbl 0 97 = .ok 1 ∧
    ∃ r : Nat, transitionCode tbl 0 97 = .ok r ∧ [0, 0xff, 0xff] <+: tbl.code.drop r := by
  obtain ⟨tbl, t, hrun, hmoves⟩ := compactTables_lossless
    [.shift .noRemember (List.replicate 97 (.backtrack, []) ++
      (.goto 1, [.set 0]) :: List.replicate 159 (.backtrack, [])), .perform 0 []] initial (by
        intro state hstate
        rcases mem_pair.mp hstate with rfl | rfl
        · rw [WellSized, length_append, length_cons, length_replicate, length_replicate]
        · trivial)
  obtain ⟨hnext, hcode, hempty⟩ := hmoves 0 _ _ rfl 97 (.goto 1) [.set 0] (by decide) (by
    rw [getElem?_append_right (by rw [length_replicate]), length_replicate]
    rfl)
  refine ⟨tbl, t, hrun, hnext, ?_⟩
  by_cases hlen : 1 < t.code.length
  · obtain ⟨_, r, hr, _, hstored⟩ := hcode hlen
    exact ⟨r, hr, hstored⟩
  · exact nomatch (hempty (by omega)).1

/-- An automaton without memory moves has no tables of code. -/
theorem transitionCode_not_emitted :
    (compactTables [.shift .noRemember (List.replicate 257 (.backtrack, []))] initial).map
      (fun x => (nextState x.1 0 97, transitionCode x.1 0 97)) =
    .ok (.ok (-1), .error .indexOutOfBounds) := by
  decide +kernel

end TravLang.Compact
