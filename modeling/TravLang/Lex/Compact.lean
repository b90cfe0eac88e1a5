import TravLang.Lex.Lexgen

/-!
# Code for memory actions (`lex/compact.ml`)

A list of memory actions is emitted once, as two bytes for each action and the byte `0xff` behind
them; a second list with the same code gets the address of the first. `run_mem` of the run-time
library reads the code back. It stops at a destination `0xff`, and takes the source `0xff` for the
current position, hence no cell may have this number. `do_alloc_cell` sees to it, `do_alloc_temp`
does not.
-/

namespace TravLang.Compact

open List
open Lexing (MemoryAction memoryAction runMem runCode)
open Lexgen (Cells cellsOf dest orig sortMvs createNewState resetStatePartial)

inductive TagAction where
  | setTag (dst src : Nat)
  | eraseTag (dst : Nat)

def insMem : MemoryAction → List Nat → List Nat
  | .copy dst src, c => dst :: src :: c
  | .set dst, c => dst :: 0xff :: c

def insTag : TagAction → List Nat → List Nat
  | .setTag dst src, c => dst :: src :: c
  | .eraseTag dst, c => dst :: 0xff :: c

/-- The tables `code` and `memory` -/
structure Tables where
  code : List Nat
  memory : List (List Nat × Nat)
  /-- The code of a list is at its address. -/
  stored : ∀ c r, memory.lookup c = some r → c ++ [0xff] <+: code.drop r

/-- `do_emit_code`, and the new entry of `memory` -/
def doEmitCode (c : List Nat) (tables : Tables) : Nat × Tables :=
  (tables.code.length, {
    code := tables.code ++ (c ++ [0xff])
    memory := (c, tables.code.length) :: tables.memory
    stored := by
      intro c' r h
      rw [lookup_cons] at h
      split at h
      · next heq =>
        obtain rfl := Option.some.inj h
        rw [drop_left, LawfulBEq.eq_of_beq heq]
      · next => exact (tables.stored c' r h).trans ((prefix_append _ _).drop r) })

def memEmitCode (c : List Nat) (tables : Tables) : Nat × Tables :=
  match tables.memory.lookup c with
  | some r => (r, tables)
  | none => doEmitCode c tables

/-- The tables with the empty code at address 0 -/
def initial : Tables := (memEmitCode [] { code := [], memory := [], stored := nofun }).2

def emitTagCode (c : List TagAction) (tables : Tables) : Nat × Tables :=
  memEmitCode (c.foldr insTag []) tables

def emitMemCode (c : List MemoryAction) (tables : Tables) : Nat × Tables :=
  memEmitCode (c.foldr insMem []) tables

/-- The code as it is written into the program (`output_byte_array`) -/
def bytes (code : List Nat) : Bytes := code.map UInt8.ofNat

/-- The code is at the address that was returned. -/
theorem memEmitCode_stored (c : List Nat) (tables : Tables) :
    c ++ [0xff] <+: (memEmitCode c tables).2.code.drop (memEmitCode c tables).1 := by
  unfold memEmitCode
  split
  · next r hr => exact tables.stored c r hr
  · next =>
    show c ++ [0xff] <+: (tables.code ++ (c ++ [0xff])).drop tables.code.length
    rw [drop_left]

/-! ## Reading the code back -/

theorem ofNat_ne {n : Nat} (h : n < 255) : UInt8.ofNat n ≠ 0xff := by
  intro heq
  have hnat := congrArg UInt8.toNat heq
  rw [UInt8.toNat_ofNat', Nat.mod_eq_of_lt (by omega)] at hnat
  exact Nat.ne_of_lt h hnat

theorem toNat_ofNat {n : Nat} (h : n < 255) : (UInt8.ofNat n).toNat = n := by
  rw [UInt8.toNat_ofNat', Nat.mod_eq_of_lt (by omega)]

/-- The meaning of actions, where the C code does not check its accesses -/
def execute (pos : Nat) (l : List MemoryAction) (mem : List Int) : Except Lexing.Exn (List Int) :=
  (l.foldlM (memoryAction pos) mem).mapError fun _ => .undefined

theorem execute_cons (pos : Nat) (mv : MemoryAction) (l : List MemoryAction) (mem : List Int) :
    execute pos (mv :: l) mem =
      ((memoryAction pos mem mv).mapError fun _ => Lexing.Exn.undefined) >>= execute pos l := by
  rw [execute, foldlM_cons]
  cases memoryAction pos mem mv <;> rfl

/-- One action of the code -/
theorem runCode_insMem (pos : Nat) (mem : List Int) (mv : MemoryAction) (c : List Nat)
    (h : ∀ n ∈ cellsOf mv, n < 255) : runCode pos (bytes (insMem mv c)) mem =
      ((memoryAction pos mem mv).mapError fun _ => Lexing.Exn.undefined) >>=
        runCode pos (bytes c) := by
  cases mv with
  | copy d s =>
    have hd : d < 255 := h d mem_cons_self
    have hs : s < 255 := h s (mem_cons_of_mem d mem_cons_self)
    simp only [insMem, bytes, map_cons, runCode, if_neg (ofNat_ne hd), Lexing.operand,
      if_neg (ofNat_ne hs), toNat_ofNat hd, toNat_ofNat hs, memoryAction, Lexing.setCell]
    cases mem[s]? with
    | none => rfl
    | some v =>
      simp only [Lexing.orElse, Result.ok_bind]
      split <;> rfl
  | set d =>
    have hd : d < 255 := h d mem_cons_self
    simp only [insMem, bytes, map_cons, runCode, if_neg (ofNat_ne hd), Lexing.operand,
      toNat_ofNat hd, memoryAction, Lexing.setCell]
    rw [if_pos (by decide), Result.ok_bind]
    split <;> rfl

/-- Code for cells below `0xff` is read back as it was written. -/
theorem runMem_code (pos : Nat) {l : List MemoryAction} (h : ∀ mv ∈ l, ∀ n ∈ cellsOf mv, n < 255)
    (rest : List Nat) (mem : List Int) :
    runMem (bytes (l.foldr insMem [] ++ 0xff :: rest)) mem pos = execute pos l mem := by
  induction l generalizing mem with
  | nil => cases rest <;> rfl
  | cons mv l ih =>
    have happ : (mv :: l).foldr insMem [] ++ 0xff :: rest =
        insMem mv (l.foldr insMem [] ++ 0xff :: rest) := by
      cases mv <;> rfl
    rw [happ, runMem, runCode_insMem pos mem mv _ (h mv mem_cons_self), execute_cons]
    congr 1
    funext mem'
    exact ih (fun mv' hmv' => h mv' (mem_cons_of_mem mv hmv')) mem'

/-- Lists of memory actions that are made in a state of the cells -/
inductive Produced (cells : Cells) : List MemoryAction → Prop
  | sortMvs {fuel : Nat} {mvs l : List MemoryAction} {cells' : Cells}
      (hmvs : ∀ mv ∈ mvs, ∀ c ∈ cellsOf mv, c < cells.nextMemCell)
      (h : sortMvs fuel mvs cells = .ok (l, cells')) : Produced cells l
  | createNewState {st st' : Lexgen.DfaState} {l : List MemoryAction} {cells' : Cells}
      (h : createNewState st cells = .ok (st', l, cells')) : Produced cells l

/-- The cells of these lists are below `0xff`, or the temporary is not and is written first. -/
theorem Produced.lt_or {cells : Cells} {l : List MemoryAction} (h : Produced cells l)
    (hle : cells.nextMemCell ≤ 255) : (∀ mv ∈ l, ∀ n ∈ cellsOf mv, n < 255) ∨
      cells.nextMemCell = 255 ∧ ∃ d l', d < 255 ∧ l = .copy 255 d :: l' := by
  cases h with
  | createNewState h =>
    refine .inl fun mv hmv n hn => ?_
    obtain ⟨d, hd, rfl⟩ := Lexgen.createNewState_lt h hle mv hmv
    exact mem_singleton.mp hn ▸ hd
  | @sortMvs fuel mvs _ _ hmvs h =>
    have hcells := Lexgen.doRec_cellsOf (P := (· ≤ cells.nextMemCell)) h (Nat.le_refl _) nofun
      fun mv hmv c hc => Nat.le_of_lt (hmvs mv hmv c hc)
    rcases Nat.lt_or_eq_of_le hle with hlt | heq
    · exact .inl fun mv hmv n hn => Nat.lt_of_le_of_lt (hcells mv hmv n hn) hlt
    · rcases Lexgen.doRec_unused h nofun (Lexgen.unused_of_lt hmvs) with hunused | ⟨d, l', hd, rfl⟩
      · refine .inl fun mv hmv n hn => ?_
        have hn' := hcells mv hmv n hn
        obtain ⟨hdest, horig⟩ := hunused mv hmv
        cases mv with
        | copy d s =>
          simp only [cellsOf, mem_cons, not_mem_nil, or_false] at hn
          simp only [dest, orig] at hdest horig
          omega
        | set d =>
          obtain rfl := mem_singleton.mp hn
          simp only [dest] at hdest
          omega
      · have hle' := hcells _ mem_cons_self d (mem_cons_of_mem _ mem_cons_self)
        exact .inr ⟨heq, d, l', by omega, by rw [heq]⟩

/-- Where every cell and the position are zero, actions change nothing. -/
theorem execute_replicate_zero {n : Nat} {l : List MemoryAction} {mem : List Int}
    (h : execute 0 l (replicate n 0) = .ok mem) : mem = replicate n 0 := by
  induction l with
  | nil => exact (Except.ok.inj h).symm
  | cons mv l ih =>
    have hstep : ∀ mem, memoryAction 0 (replicate n 0) mv = .ok mem → mem = replicate n 0 := by
      intro mem hmem
      cases mv with
      | copy d s =>
        obtain ⟨v, hv, hset⟩ := Result.bind_eq_ok.mp hmem
        grind [Lexing.orElse, Lexing.setCell, set_replicate_self]
      | set d => grind [memoryAction, Lexing.setCell, set_replicate_self]
    rw [execute_cons] at h
    obtain ⟨mem', hmem', hrun⟩ := Result.bind_eq_ok.mp h
    cases hact : memoryAction 0 (replicate n 0) mv with
    | error e => simp [hact, Except.mapError] at hmem'
    | ok mem'' =>
      obtain rfl := hstep mem'' hact
      simp only [hact, Except.mapError, Except.ok.injEq] at hmem'
      exact ih (hmem' ▸ hrun)

/-- The zero of the cell `d` is written over the one of the cell `n`. -/
theorem execute_copy_ne {n d : Nat} (hd : d < n) (l : List MemoryAction) :
    execute 0 (.copy n d :: l) ((replicate (n + 1) 0).set n 1) ≠
      .ok ((replicate (n + 1) 0).set n 1) := by
  have hget : ((replicate (n + 1) (0 : Int)).set n 1)[d]? = some 0 := by
    rw [getElem?_set_ne (Nat.ne_of_gt hd), getElem?_replicate, if_pos (by omega)]
  have hstep : memoryAction 0 ((replicate (n + 1) 0).set n 1) (.copy n d) =
      .ok (replicate (n + 1) 0) := by
    simp [memoryAction, hget, Lexing.orElse, Lexing.setCell]
  intro hexec
  rw [execute_cons, hstep] at hexec
  have hcell := congrArg (·[n]?) (execute_replicate_zero hexec)
  simp at hcell

/-- **`run_mem` does with the code of a list what the list says**, at any later time, exactly if the
cell 255 was not taken as the temporary. -/
theorem runMem_emitMemCode (cells : Cells) (hle : cells.nextMemCell ≤ 255) (l : List MemoryAction)
    (hl : Produced cells l) (tables : Tables) (code : List Nat)
    (hcode : (emitMemCode l tables).2.code <+: code) :
    (∀ pos mem, runMem (bytes (code.drop (emitMemCode l tables).1)) mem pos = execute pos l mem) ↔
      (cells.nextMemCell = 255 → ∀ mv ∈ l, dest mv ≠ 255) := by
  obtain ⟨rest, hrest⟩ := (memEmitCode_stored (l.foldr insMem []) tables).trans
    (hcode.drop (emitMemCode l tables).1)
  have hcode' : code.drop (emitMemCode l tables).1 = l.foldr insMem [] ++ 0xff :: rest := by
    rw [← append_cons] at hrest
    exact hrest.symm
  rw [hcode']
  rcases hl.lt_or hle with hlt | ⟨heq, d, l', hd, rfl⟩
  · refine ⟨fun _ _ mv hmv => Nat.ne_of_lt (hlt mv hmv _ (by cases mv <;> exact mem_cons_self)),
      fun _ pos mem => runMem_code pos hlt rest mem⟩
  · refine ⟨fun hrun => ?_, fun htemp => absurd rfl (htemp heq _ mem_cons_self)⟩
    -- the code stops at its first byte
    exact (execute_copy_ne hd l' (hrun 0 _).symm).elim

/-- The code of an exchange with the temporary 2. -/
theorem runMem_emitMemCode_swap :
    let l : List MemoryAction := [.copy 2 0, .copy 0 1, .copy 1 2]
    runMem (bytes ((emitMemCode l initial).2.code.drop (emitMemCode l initial).1)) [10, 11, -1] 0 =
      execute 0 l [10, 11, -1] :=
  (runMem_emitMemCode (resetStatePartial 2) (by decide) _
    (@Produced.sortMvs _ 4 [.copy 0 1, .copy 1 0] _ _ (by decide) rfl) initial _
    (prefix_refl _)).mpr (by decide) 0 [10, 11, -1]

/-- When all cells are taken, the temporary of an exchange is the cell 255, and its code ends before
it begins. -/
theorem runMem_temp_255 :
    (sortMvs 4 [.copy 0 1, .copy 1 0] (resetStatePartial 255)).map Prod.fst =
      .ok [.copy 255 0, .copy 0 1, .copy 1 255] ∧
    (∀ mem, runMem (bytes ((emitMemCode [.copy 255 0, .copy 0 1, .copy 1 255] initial).2.code.drop
        (emitMemCode [.copy 255 0, .copy 0 1, .copy 1 255] initial).1)) mem 0 = .ok mem) ∧
    (execute 0 [.copy 255 0, .copy 0 1, .copy 1 255] (10 :: 11 :: List.replicate 254 0)).map
      (·.take 2) = .ok [11, 10] :=
  ⟨rfl, fun _ => rfl, by decide +kernel⟩

end TravLang.Compact
