import TravLang.Runtime.Marshal.PositionTable

/-!
# The size of what a value reaches (`caml_obj_reachable_words`)

Here every pointer is an address of the memory, also one to a block without fields or into the
middle of a closure. What is at an address is a block, with as many words as it has fields, or an
infix header with its distance from the closure around it. The visited blocks are kept in the hash
table of the writer, and its stack grows up to `EXTERN_STACK_MAX_SIZE`; the words are counted
without overflow.
-/

namespace TravLang.Runtime.Marshal.ReachableWords

open Result List

inductive Val where
  | long (n : Int)
  | pointer (a : Nat)
  deriving DecidableEq, Repr

inductive Entry where
  /-- `startEnv` is `Start_env_closinfo`, for a closure -/
  | block (tag startEnv : Nat) (fields : List Val)
  /-- `Infix_offset_hd` -/
  | infixHeader (offset : Nat)
  deriving DecidableEq, Repr

/-- The memory: what is at an address. -/
abbrev Memory := List (Nat × Entry)

def noScanTag : Nat := 251

/-- The fields that are traversed: those of a closure from its environment on. -/
def scanned : Entry → List Val
  | .block tag startEnv fields =>
    if tag < noScanTag then fields.drop (if tag = closureTag then startEnv else 0) else []
  | .infixHeader _ => []

/-- The words of a block, with its header. -/
def words : Entry → Nat
  | .block _ _ fields => 1 + fields.length
  | .infixHeader _ => 0

def externStackInitSize : Nat := 256

def externStackMaxSize : Nat := 1024 * 1024 * 100

structure State where
  table : ExternState
  size : Nat
  /-- `extern_stack_limit - extern_stack`; the first place of the stack is not used -/
  limit : Nat

/-- `extern_resize_stack` -/
def externResizeStack (s : State) : Except Exn State :=
  if 2 * s.limit ≥ externStackMaxSize then .error .outOfMemory
  else .ok { s with limit := 2 * s.limit }

/-- The stack gets an item for the fields after the first one. -/
def pushItem (s : State) (sp : Nat) (fields : List Val) : Except Exn State :=
  if fields.length > 1 ∧ sp + 1 ≥ s.limit then externResizeStack s else .ok s

/-- The next state after a value is done with: one more item of the stack is popped. -/
def popItem (s : State) : List (List Val) → (State × Val × List (List Val)) ⊕ Except Exn Nat
  | [] => .inr (.ok s.size)
  | [] :: stack => popItem s stack
  | [v] :: stack => .inl (s, v, stack)
  | (v :: rest) :: stack => .inl (s, v, rest :: stack)

/-- One round of the loop. -/
def step (host : Host) (mem : Memory) :
    State × Val × List (List Val) → (State × Val × List (List Val)) ⊕ Except Exn Nat
  | (s, .long _, stack) => popItem s stack
  | (s, .pointer a, stack) =>
    match externLookupPosition host s.table.posTable a with
    | .error e => .inr (.error e)
    | .ok (.inl _) => popItem s stack
    | .ok (.inr h) =>
      match mem.lookup a with
      | none => .inr (.error .outOfBounds)
      | some (.infixHeader offset) => .inl (s, .pointer (a - offset), stack)
      | some (.block tag startEnv fields) =>
        match externRecordLocation host .default s.table a h with
        | .error e => .inr (.error e)
        | .ok table =>
          let rest := scanned (.block tag startEnv fields)
          match pushItem { s with table, size := s.size + (1 + fields.length) }
            stack.length rest with
          | .error e => .inr (.error e)
          -- the fields are put on the stack and the first one is taken from there
          | .ok s => popItem s (rest :: stack)

/-- The first argument bounds the number of rounds. -/
def camlObjReachableWords (fuel : Nat) (host : Host) (mem : Memory) (v : Val) :
    Option (Except Exn Nat) :=
  Machine.run (step host mem) fuel (⟨externInit host, 0, externStackInitSize⟩, v, [])

/-! ## What is reached -/

/-- The block that a value points to, or into. -/
def target (mem : Memory) : Val → Option Nat
  | .long _ => none
  | .pointer a =>
    match mem.lookup a with
    | some (.infixHeader offset) => some (a - offset)
    | _ => some a

def fieldsAt (mem : Memory) (a : Nat) : List Val := ((mem.lookup a).map scanned).getD []

/-- The blocks reached from a value through the fields that are traversed. -/
inductive Reachable (mem : Memory) (v : Val) : Nat → Prop where
  | root {a : Nat} : target mem v = some a → Reachable mem v a
  | field {a b : Nat} {u : Val} : Reachable mem v a → u ∈ fieldsAt mem a →
      target mem u = some b → Reachable mem v b

def wordsAt (mem : Memory) (a : Nat) : Nat := ((mem.lookup a).map words).getD 0

/-- A value that points to a block, perhaps through an infix header. -/
def PointsToBlock (mem : Memory) (v : Val) : Prop :=
  ∀ a, target mem v = some a → ∃ tag startEnv fields,
    mem.lookup a = some (.block tag startEnv fields)

/-- A memory with the blocks that its values point to. -/
structure MemoryOk (mem : Memory) (v : Val) : Prop where
  value : PointsToBlock mem v
  fields : ∀ p ∈ mem, ∀ u ∈ scanned p.2, PointsToBlock mem u

/-! ## The table or the stack cannot grow -/

variable {host : Host}

theorem resize_fails {t : PositionTable} {p : Nat} (hsize : t.size = 2 ^ p)
    (hp : p + 3 ≤ host.wordBits) (h : externResizePositionTable host t = .error .outOfMemory) :
    2 ^ host.wordBits ≤ 4 * host.wordSize * t.size := by
  have hword := wordSize_cases host
  have hwide : 2 ^ 32 ≤ 2 ^ host.wordBits :=
    Nat.pow_le_pow_right (by decide) (by have := wordBits_cases host; omega)
  have hfit : 8 * t.size ≤ 2 ^ host.wordBits := by
    rw [hsize, show 8 * 2 ^ p = 2 ^ (p + 3) by rw [Nat.pow_add]; omega]
    exact Nat.pow_le_pow_right (by decide) hp
  have hpos : 0 < t.size := by
    rw [hsize]
    exact Nat.two_pow_pos p
  unfold externResizePositionTable at h
  by_cases hsmall : t.size < 1000000
  · -- a small table can always grow
    have hfree : ¬ (8 * t.size % 2 ^ host.wordBits = 0 ∨
        2 ^ host.wordBits ≤ 8 * t.size % 2 ^ host.wordBits * (2 * host.wordSize)) := by
      rw [Nat.mod_eq_of_lt (by omega)]
      rcases hword with hw | hw <;> rw [hw] <;> omega
    simp only [if_pos hsmall, if_neg hfree] at h
    split at h <;> cases h
  · simp only [if_neg hsmall] at h
    rw [Nat.mod_eq_of_lt (by omega)] at h
    split at h
    · next hfull =>
      rcases hword with hw | hw <;> rw [hw] at hfull ⊢ <;> omega
    · split at h <;> cases h

/-- Recording a block fails only if the table takes up a good part of the address space. -/
theorem record_fails {s : ExternState} {seen : List Nat} {a slot : Nat}
    (h : StandsFor host s.posTable seen) (hcounter : s.objCounter = seen.length)
    (herr : externRecordLocation host .default s a slot = .error .outOfMemory) :
    2 ^ host.wordBits ≤ host.wordSize * (6 * (seen.length + 1) + 4) := by
  obtain ⟨p, hsize, -, hp⟩ := h.bits
  simp only [externRecordLocation, Flags.default, Bool.false_eq_true, if_false] at herr
  split at herr
  · next hfull =>
    rw [h.threshold, threshold, hcounter] at hfull
    cases hresize : externResizePositionTable host { s.posTable with
        entries := s.posTable.entries.set slot (some (a, s.objCounter)) } with
    | ok t => rw [hresize] at herr; cases herr
    | error e =>
      rw [hresize] at herr
      cases herr
      have hbig := resize_fails (t := { s.posTable with
        entries := s.posTable.entries.set slot (some (a, s.objCounter)) }) hsize hp hresize
      calc 2 ^ host.wordBits ≤ host.wordSize * (4 * s.posTable.size) := by
            rw [← Nat.mul_assoc, Nat.mul_comm host.wordSize]
            exact hbig
        _ ≤ host.wordSize * (6 * (seen.length + 1) + 4) := Nat.mul_le_mul_left _ (by omega)
  · cases herr

/-- The stack cannot grow beyond `2 ^ 26` places. -/
theorem pushItem_spec {s : State} {k : Nat} (hlimit : s.limit = 2 ^ k) (sp : Nat)
    (fields : List Val) : (pushItem s sp fields = .error .outOfMemory ∧ 2 ^ 26 ≤ sp + 1) ∨
      ∃ k', pushItem s sp fields = .ok { s with limit := 2 ^ k' } := by
  unfold pushItem
  split
  · next hfull =>
    unfold externResizeStack
    split
    · next hmax =>
      have hk : 26 ≤ k := by
        by_contra hlt
        have := Nat.pow_le_pow_right (by decide : 0 < 2) (show k ≤ 25 by omega)
        rw [hlimit] at hmax
        exact absurd (Nat.le_trans hmax (Nat.mul_le_mul_left 2 this)) (by decide)
      refine .inl ⟨rfl, Nat.le_trans ?_ (hlimit ▸ hfull.2)⟩
      exact Nat.pow_le_pow_right (by decide) hk
    · exact .inr ⟨k + 1, by rw [hlimit, Nat.pow_succ, Nat.mul_comm]⟩
  · exact .inr ⟨k, by rw [← hlimit]⟩

/-! ## The traversal -/

section Traversal

variable {host : Host} {mem : Memory} {v : Val} {seen : List Nat} {vs fields : List Val}
  {a startEnv tag : Nat}

/-- A block that has been visited, or that one of the values to come points to. -/
def Covered (mem : Memory) (seen : List Nat) (vs : List Val) (b : Nat) : Prop :=
  b ∈ seen ∨ ∃ u ∈ vs, target mem u = some b

/-- The blocks `seen` have been visited, and the values `vs` are still to come. -/
structure Visited (mem : Memory) (v : Val) (seen : List Nat) (vs : List Val) : Prop where
  blocks : ∀ b ∈ seen, ∃ tag startEnv fields, mem.lookup b = some (.block tag startEnv fields)
  sound : ∀ b ∈ seen, Reachable mem v b
  pending : ∀ u ∈ vs, PointsToBlock mem u ∧ ∀ b, target mem u = some b → Reachable mem v b
  closed : ∀ b ∈ seen, ∀ u ∈ fieldsAt mem b, ∀ c, target mem u = some c → Covered mem seen vs c
  root : ∀ b, target mem v = some b → Covered mem seen vs b

theorem Visited.init (h : MemoryOk mem v) : Visited mem v [] [v] := by
  refine ⟨nofun, nofun, ?_, nofun, fun b hb => .inr ⟨v, mem_singleton.mpr rfl, hb⟩⟩
  intro u hu
  rw [mem_singleton.mp hu]
  exact ⟨h.value, fun b hb => .root hb⟩

/-- The values to come may change as long as what they point to does not. -/
theorem Visited.replace {vs' : List Val} (h : Visited mem v seen vs)
    (hpending : ∀ u ∈ vs', PointsToBlock mem u ∧ ∀ b, target mem u = some b → Reachable mem v b)
    (hcover : ∀ b, Covered mem seen vs b → Covered mem seen vs' b) : Visited mem v seen vs' :=
  ⟨h.blocks, h.sound, hpending, fun b hb u hu c hc => hcover c (h.closed b hb u hu c hc),
    fun b hb => hcover b (h.root b hb)⟩

/-- A value that points to no block, or to one that has been visited, is done with. -/
theorem Visited.skip {u : Val} (h : Visited mem v seen (u :: vs))
    (hu : ∀ b, target mem u = some b → b ∈ seen) : Visited mem v seen vs := by
  refine h.replace (fun u' hu' => h.pending u' (mem_cons_of_mem _ hu')) ?_
  rintro b (hb | ⟨u', hu', hb⟩)
  · exact .inl hb
  · rcases mem_cons.mp hu' with rfl | hu'
    · exact .inl (hu b hb)
    · exact .inr ⟨u', hu', hb⟩

/-- An infix pointer is replaced with a pointer to the closure. -/
theorem Visited.infixPointer {offset : Nat} (h : Visited mem v seen (.pointer a :: vs))
    (hget : mem.lookup a = some (.infixHeader offset)) :
    Visited mem v seen (.pointer (a - offset) :: vs) := by
  have htarget : target mem (.pointer a) = some (a - offset) := by simp [target, hget]
  obtain ⟨hblock, hreach⟩ := h.pending _ mem_cons_self
  obtain ⟨tag, startEnv, fields, hclosure⟩ := hblock _ htarget
  have htarget' : target mem (.pointer (a - offset)) = some (a - offset) := by
    simp [target, hclosure]
  have hsame : target mem (.pointer (a - offset)) = target mem (.pointer a) := by
    rw [htarget, htarget']
  refine h.replace ?_ ?_
  · intro u hu
    rcases mem_cons.mp hu with rfl | hu
    · exact ⟨fun b hb => hblock b (hsame ▸ hb), fun b hb => hreach b (hsame ▸ hb)⟩
    · exact h.pending u (mem_cons_of_mem _ hu)
  · rintro b (hb | ⟨u, hu, hb⟩)
    · exact .inl hb
    · rcases mem_cons.mp hu with rfl | hu
      · exact .inr ⟨_, mem_cons_self, hsame.trans hb⟩
      · exact .inr ⟨u, mem_cons_of_mem _ hu, hb⟩

/-- **A new block is visited, and its fields come next.** -/
theorem Visited.visit (hmem : MemoryOk mem v) (h : Visited mem v seen (.pointer a :: vs))
    (hget : mem.lookup a = some (.block tag startEnv fields)) :
    Visited mem v (seen ++ [a]) (scanned (.block tag startEnv fields) ++ vs) := by
  have htarget : target mem (.pointer a) = some a := by simp [target, hget]
  have hfields : fieldsAt mem a = scanned (.block tag startEnv fields) := by simp [fieldsAt, hget]
  have hreach := (h.pending _ mem_cons_self).2 a htarget
  have hin : (a, Entry.block tag startEnv fields) ∈ mem := by
    obtain ⟨l₁, l₂, hl, -⟩ := lookup_eq_some_iff.mp hget
    exact hl ▸ mem_append_right _ mem_cons_self
  have hcover : ∀ b, Covered mem seen (.pointer a :: vs) b →
      Covered mem (seen ++ [a]) (scanned (.block tag startEnv fields) ++ vs) b := by
    rintro b (hb | ⟨u, hu, hb⟩)
    · exact .inl (mem_append_left _ hb)
    · rcases mem_cons.mp hu with rfl | hu
      · rw [htarget, Option.some.injEq] at hb
        exact .inl (by simp [hb])
      · exact .inr ⟨u, mem_append_right _ hu, hb⟩
  refine ⟨?_, ?_, ?_, ?_, fun b hb => hcover b (h.root b hb)⟩
  · exact forall_mem_append.mpr
      ⟨h.blocks, forall_mem_singleton.mpr ⟨tag, startEnv, fields, hget⟩⟩
  · exact forall_mem_append.mpr ⟨h.sound, forall_mem_singleton.mpr hreach⟩
  · intro u hu
    rcases mem_append.mp hu with hu | hu
    · exact ⟨hmem.fields _ hin u hu, fun b hb => .field hreach (hfields ▸ hu) hb⟩
    · exact h.pending u (mem_cons_of_mem _ hu)
  · intro b hb u hu c hc
    rcases mem_append.mp hb with hb | hb
    · exact hcover c (h.closed b hb u hu c hc)
    · rw [mem_singleton.mp hb, hfields] at hu
      exact .inr ⟨u, mem_append_left _ hu, hc⟩

/-- At the end, exactly the blocks that are reached have been visited. -/
theorem Visited.mem_iff (h : Visited mem v seen []) (b : Nat) : b ∈ seen ↔ Reachable mem v b := by
  have hdone : ∀ c, Covered mem seen [] c → c ∈ seen := by
    rintro c (hc | ⟨u, hu, -⟩)
    · exact hc
    · cases hu
  refine ⟨h.sound b, fun hb => ?_⟩
  induction hb with
  | root ha => exact hdone _ (h.root _ ha)
  | field _ hu hb ih => exact hdone _ (h.closed _ ih _ hu _ hb)

/-! ## Termination -/

/-- The rounds that a value takes at most, apart from those for its fields. -/
def weight (mem : Memory) : Val → Nat
  | .long _ => 1
  | .pointer a =>
    match mem.lookup a with
    | some (.infixHeader _) => 2
    | _ => 1

/-- The rounds for the fields of a block, if it has not been visited. -/
def cost (seen : List Nat) (p : Nat × Entry) : Nat :=
  if p.1 ∈ seen then 0 else 2 * (scanned p.2).length

def unvisited (seen : List Nat) (mem : Memory) : Nat := (mem.map (cost seen)).sum

def measure (mem : Memory) (seen : List Nat) (vs : List Val) : Nat :=
  (vs.map (weight mem)).sum + unvisited seen mem

theorem weight_bounds (mem : Memory) (u : Val) : 1 ≤ weight mem u ∧ weight mem u ≤ 2 := by
  unfold weight
  split
  · omega
  · split <;> omega

theorem sum_weight_le (mem : Memory) (vs : List Val) :
    (vs.map (weight mem)).sum ≤ 2 * vs.length := by
  induction vs with
  | nil => simp
  | cons u vs ih =>
    have := (weight_bounds mem u).2
    simp only [map_cons, sum_cons, length_cons]
    omega

theorem cost_append_le (seen : List Nat) (a : Nat) (p : Nat × Entry) :
    cost (seen ++ [a]) p ≤ cost seen p := by
  unfold cost
  by_cases hp : p.1 ∈ seen
  · simp [hp]
  · rw [if_neg hp]
    split <;> omega

theorem unvisited_append {e : Entry} (ha : a ∉ seen) : ∀ {mem : Memory}, (a, e) ∈ mem →
    unvisited (seen ++ [a]) mem + 2 * (scanned e).length ≤ unvisited seen mem
  | p :: mem, hin => by
    have hmono : ∀ mem : Memory, unvisited (seen ++ [a]) mem ≤ unvisited seen mem := by
      intro mem
      induction mem with
      | nil => rfl
      | cons p mem ih => exact Nat.add_le_add (cost_append_le seen a p) ih
    have hp := cost_append_le seen a p
    have hle := hmono mem
    simp only [unvisited, map_cons, sum_cons] at hle ⊢
    rcases mem_cons.mp hin with rfl | hin
    · have hold : cost seen (a, e) = 2 * (scanned e).length := if_neg ha
      have hnew : cost (seen ++ [a]) (a, e) = 0 := if_pos (by simp)
      omega
    · have ih := unvisited_append (e := e) ha hin
      simp only [unvisited] at ih
      omega

theorem measure_visit (hget : mem.lookup a = some (.block tag startEnv fields)) (ha : a ∉ seen) :
    measure mem (seen ++ [a]) (scanned (.block tag startEnv fields) ++ vs) <
      measure mem seen (.pointer a :: vs) := by
  obtain ⟨l₁, l₂, hl, -⟩ := lookup_eq_some_iff.mp hget
  have hless := unvisited_append ha (hl ▸ mem_append_right l₁ mem_cons_self)
  have hsum := sum_weight_le mem (scanned (.block tag startEnv fields))
  have hone := (weight_bounds mem (.pointer a)).1
  simp only [measure, map_append, sum_append, map_cons, sum_cons]
  omega

/-! ## Runs -/

/-- The state of the loop: the table and the count are those of the visited blocks. -/
structure Counts (host : Host) (mem : Memory) (seen : List Nat) (s : State) : Prop where
  table : StandsFor host s.table.posTable seen
  counter : s.table.objCounter = seen.length
  size : s.size = (seen.map (wordsAt mem)).sum
  limit : ∃ k, s.limit = 2 ^ k

/-- The result of a run: the words of the blocks that are reached, or a table or a stack that cannot
grow. -/
def Correct (host : Host) (mem : Memory) (v : Val) (r : Option (Except Exn Nat)) : Prop :=
  (r = some (.error .outOfMemory) ∧
    (2 ^ 26 ≤ mem.length ∨ 2 ^ host.wordBits ≤ host.wordSize * (6 * mem.length + 4))) ∨
  ∃ seen : List Nat, seen.Nodup ∧ (∀ b, b ∈ seen ↔ Reachable mem v b) ∧
    r = some (.ok (seen.map (wordsAt mem)).sum)

theorem popItem_spec (s : State) : ∀ stack : List (List Val),
    (stack.flatten = [] ∧ popItem s stack = .inr (.ok s.size)) ∨
    ∃ u stack', popItem s stack = .inl (s, u, stack') ∧ stack.flatten = u :: stack'.flatten ∧
      stack'.length ≤ stack.length
  | [] => .inl ⟨rfl, rfl⟩
  | [] :: stack => (popItem_spec s stack).imp_right fun ⟨u, stack', hpop, hflat, hlen⟩ =>
    ⟨u, stack', hpop, hflat, Nat.le_succ_of_le hlen⟩
  | [u] :: stack => .inr ⟨u, stack, rfl, rfl, Nat.le_succ _⟩
  | (u :: u' :: rest) :: stack => .inr ⟨u, (u' :: rest) :: stack, rfl, rfl, Nat.le_refl _⟩

theorem length_lt_of_visited (h : Visited mem v seen (.pointer a :: vs)) (hnodup : seen.Nodup)
    {e : Entry} (hget : mem.lookup a = some e) (ha : a ∉ seen) : seen.length + 1 ≤ mem.length := by
  have hkey : ∀ {b : Nat} {e : Entry}, mem.lookup b = some e → b ∈ mem.map Prod.fst := by
    intro b e hb
    obtain ⟨l₁, l₂, hl, -⟩ := lookup_eq_some_iff.mp hb
    simp [hl]
  have hsub : a :: seen ⊆ mem.map Prod.fst := by
    intro b hb
    rcases mem_cons.mp hb with rfl | hb
    · exact hkey hget
    · obtain ⟨_, _, _, hb⟩ := h.blocks b hb
      exact hkey hb
  have := (subperm_of_subset (nodup_cons.mpr ⟨ha, hnodup⟩) hsub).length_le
  simpa using this

/-- **A run visits what is reached**, from any state of the traversal. -/
theorem run_correct (hmem : MemoryOk mem v) : ∀ (n : Nat) (s : State) (u : Val)
    (stack : List (List Val)) (seen : List Nat), measure mem seen (u :: stack.flatten) < n →
    Counts host mem seen s → stack.length ≤ seen.length →
    Visited mem v seen (u :: stack.flatten) →
    Correct host mem v (Machine.run (step host mem) n (s, u, stack))
  | 0, _, _, _, _, hn, _, _, _ => absurd hn (by omega)
  | n + 1, s, u, stack, seen, hn, hs, hlen, hvisited => by
    -- after the next item is popped, the rest of the run is shorter
    have hpop : ∀ (s' : State) (stack' : List (List Val)) (seen' : List Nat),
        step host mem (s, u, stack) = popItem s' stack' → Counts host mem seen' s' →
        stack'.length ≤ seen'.length → Visited mem v seen' stack'.flatten →
        measure mem seen' stack'.flatten < measure mem seen (u :: stack.flatten) →
        Correct host mem v (Machine.run (step host mem) (n + 1) (s, u, stack)) := by
      intro s' stack' seen' hstep hs' hlen' hv' hless
      rw [Machine.run, hstep]
      rcases popItem_spec s' stack' with ⟨hdone, hpop⟩ | ⟨u', stack'', hpop, hflat, hle⟩
      · rw [hpop]
        rw [hdone] at hv'
        exact .inr ⟨seen', by simpa using hs'.table.holds.nodup, hv'.mem_iff, by rw [hs'.size]⟩
      · rw [hpop]
        rw [hflat] at hv' hless
        exact run_correct hmem n s' u' stack'' seen' (by omega) hs' (hle.trans hlen') hv'
    have hskip : measure mem seen stack.flatten < measure mem seen (u :: stack.flatten) := by
      have := (weight_bounds mem u).1
      simp only [measure, map_cons, sum_cons]
      omega
    cases u with
    | long m => exact hpop s stack seen rfl hs hlen (hvisited.skip (by simp [target])) hskip
    | pointer a =>
      rcases externLookupPosition_spec hs.table a with
        ⟨pos, hfound, hpos⟩ | ⟨slot, hfound, hnew, hslot⟩
      · have ha : a ∈ seen := mem_iff_getElem?.mpr ⟨pos, hpos⟩
        refine hpop s stack seen (by simp only [step, hfound]) hs hlen
          (hvisited.skip fun b hb => ?_) hskip
        obtain ⟨tag, startEnv, fields, hget⟩ := hvisited.blocks a ha
        simp only [target, hget, Option.some.injEq] at hb
        rwa [← hb]
      · cases hget : mem.lookup a with
        | none =>
          have htarget : target mem (.pointer a) = some a := by simp [target, hget]
          obtain ⟨_, _, _, hblock⟩ := (hvisited.pending _ mem_cons_self).1 a htarget
          rw [hget] at hblock
          cases hblock
        | some e =>
          cases e with
          | infixHeader offset =>
            have hinl : step host mem (s, .pointer a, stack) =
                .inl (s, .pointer (a - offset), stack) := by simp only [step, hfound, hget]
            rw [Machine.run_succ_of_inl hinl]
            have hnext := hvisited.infixPointer hget
            refine run_correct hmem n s _ stack seen ?_ hs hlen hnext
            have hclosure : weight mem (.pointer (a - offset)) = 1 := by
              have htarget : target mem (.pointer a) = some (a - offset) := by simp [target, hget]
              obtain ⟨_, _, _, hblock⟩ := (hvisited.pending _ mem_cons_self).1 _ htarget
              simp [weight, hblock]
            have htwo : weight mem (.pointer a) = 2 := by simp [weight, hget]
            simp only [measure, map_cons, sum_cons, hclosure, htwo] at hn ⊢
            omega
          | block tag startEnv fields =>
            have hnodup : seen.Nodup := by simpa using hs.table.holds.nodup
            have hfew := length_lt_of_visited hvisited hnodup hget hnew
            have hsharing : Flags.default.noSharing = false := rfl
            obtain ⟨k, hlimit⟩ := hs.limit
            rcases externRecordLocation_spec hsharing hs.table hs.counter hslot with
              herr | ⟨t, hok, ht⟩
            · left
              have hinr : step host mem (s, .pointer a, stack) = .inr (.error .outOfMemory) := by
                simp only [step, hfound, hget, herr]
              refine ⟨by rw [Machine.run, hinr], .inr ?_⟩
              have hbig := record_fails hs.table hs.counter herr
              exact Nat.le_trans hbig (Nat.mul_le_mul_left _ (by omega))
            obtain ⟨table, hok, hpos, hcounter⟩ : ∃ table,
                externRecordLocation host .default s.table a slot = .ok table ∧
                StandsFor host table.posTable (seen ++ [a]) ∧
                table.objCounter = (seen ++ [a]).length := ⟨_, hok, ht, by simp [hs.counter]⟩
            rcases pushItem_spec (s := ⟨table, s.size + (1 + fields.length), s.limit⟩) hlimit
              stack.length (scanned (.block tag startEnv fields)) with ⟨herr, hdeep⟩ | ⟨k', hpush⟩
            · have hinr : step host mem (s, .pointer a, stack) = .inr (.error .outOfMemory) := by
                simp only [step, hfound, hget, hok, herr]
              exact .inl ⟨by rw [Machine.run, hinr], .inl (by omega)⟩
            · refine hpop ⟨table, s.size + (1 + fields.length), 2 ^ k'⟩
                (scanned (.block tag startEnv fields) :: stack) (seen ++ [a])
                (by simp only [step, hfound, hget, hok, hpush])
                  ⟨hpos, hcounter, ?_, k', rfl⟩ ?_ ?_ ?_
              · simp [hs.size, wordsAt, hget, words]
              · simp [hlen]
              · rw [flatten_cons]
                exact hvisited.visit hmem hget
              · rw [flatten_cons]
                exact measure_visit hget hnew

/-- **The words that a value reaches.** The traversal ends, with one plus the size of every block
that is reached, each of them counted once; only if there are so many blocks that the stack or the
table of the visited ones cannot grow is the result `Out_of_memory`. -/
theorem reachable_words_correct (host : Host) (hmem : MemoryOk mem v) : ∃ n,
    ((2 ^ 26 ≤ mem.length ∨ 2 ^ host.wordBits ≤ host.wordSize * (6 * mem.length + 4)) ∧
      ∀ fuel ≥ n, camlObjReachableWords fuel host mem v = some (.error .outOfMemory)) ∨
    ∃ blocks : List Nat, blocks.Nodup ∧ (∀ b, b ∈ blocks ↔ Reachable mem v b) ∧
      ∀ fuel ≥ n, camlObjReachableWords fuel host mem v =
        some (.ok (blocks.map (wordsAt mem)).sum) := by
  refine ⟨measure mem [] [v] + 1, ?_⟩
  rcases run_correct hmem _ ⟨externInit host, 0, externStackInitSize⟩ v [] [] (Nat.lt_succ_self _)
    ⟨standsFor_init host, rfl, rfl, 8, rfl⟩ (Nat.le_refl _) (Visited.init hmem) with
    ⟨hrun, hbig⟩ | ⟨blocks, hnodup, hiff, hrun⟩
  · exact .inl ⟨hbig, fun fuel hfuel => Machine.run_mono hrun hfuel⟩
  · exact .inr ⟨blocks, hnodup, hiff, fun fuel hfuel => Machine.run_mono hrun hfuel⟩

end Traversal

/-- A closure that is reached through its infix header and refers to itself and to a block without
fields. -/
def selfClosure : Memory :=
  [(8, .block closureTag 5 [.long 0, .long 1, .long 2, .long 3, .long 4, .pointer 32, .pointer 80]),
    (32, .infixHeader 24), (80, .block 0 0 [])]

theorem reachable_words_selfClosure : MemoryOk selfClosure (.pointer 32) ∧ ∃ n,
    ((2 ^ 26 ≤ selfClosure.length ∨ 2 ^ 64 ≤ 8 * (6 * selfClosure.length + 4)) ∧
      ∀ fuel ≥ n, camlObjReachableWords fuel ⟨true, false⟩ selfClosure (.pointer 32) =
        some (.error .outOfMemory)) ∨
    ∃ blocks : List Nat, blocks.Nodup ∧
      (∀ b, b ∈ blocks ↔ Reachable selfClosure (.pointer 32) b) ∧
      ∀ fuel ≥ n, camlObjReachableWords fuel ⟨true, false⟩ selfClosure (.pointer 32) =
        some (.ok (blocks.map (wordsAt selfClosure)).sum) := by
  have hmem : MemoryOk selfClosure (.pointer 32) := by
    have hclosure : PointsToBlock selfClosure (.pointer 32) := by
      rintro a ⟨⟩
      exact ⟨_, _, _, rfl⟩
    have hempty : PointsToBlock selfClosure (.pointer 80) := by
      rintro a ⟨⟩
      exact ⟨_, _, _, rfl⟩
    refine ⟨hclosure, ?_⟩
    intro p hp u hu
    simp only [selfClosure, mem_cons, not_mem_nil, or_false] at hp
    rcases hp with rfl | rfl | rfl
    · have hu' : u = .pointer 32 ∨ u = .pointer 80 := by
        simpa [scanned, noScanTag, closureTag] using hu
      rcases hu' with rfl | rfl
      · exact hclosure
      · exact hempty
    · cases hu
    · cases hu
  exact ⟨hmem, reachable_words_correct ⟨true, false⟩ hmem⟩

example : camlObjReachableWords 10 ⟨true, false⟩ selfClosure (.pointer 32) = some (.ok 9) := by
  decide +kernel

/-! ## Nested pairs -/

/-- The value of `n` pairs, each the first component of the next one. -/
def nested : Nat → Val
  | 0 => .long 0
  | n + 1 => .pointer (n + 1)

def pairs : Nat → Memory
  | 0 => []
  | n + 1 => (n + 1, .block 0 0 [nested n, .long 0]) :: pairs n

theorem lookup_pairs {a : Nat} : ∀ {n : Nat}, a < n →
    (pairs n).lookup (a + 1) = some (.block 0 0 [nested a, .long 0])
  | n + 1, h => by
    rw [pairs, lookup_cons]
    rcases Nat.lt_or_eq_of_le (Nat.le_of_lt_succ h) with hlt | rfl
    · rw [show (a + 1 == n + 1) = false by simp; omega, lookup_pairs hlt]
    · simp

theorem memoryOk_pairs (n : Nat) : MemoryOk (pairs n) (nested n) := by
  have hnested : ∀ a ≤ n, PointsToBlock (pairs n) (nested a) := by
    rintro (_ | a) ha b hb
    · cases hb
    · have hget := lookup_pairs (show a < n by omega)
      simp only [nested, target, hget, Option.some.injEq] at hb
      exact ⟨_, _, _, hb ▸ hget⟩
  refine ⟨hnested n (Nat.le_refl n), fun p hp u hu => ?_⟩
  obtain ⟨a, ha, heq⟩ : ∃ a ≤ n, p.2 = .block 0 0 [nested a, .long 0] := by
    clear hnested hu
    induction n with
    | zero => cases hp
    | succ n ih =>
      rcases mem_cons.mp hp with rfl | hp
      · exact ⟨n, Nat.le_succ n, rfl⟩
      · obtain ⟨a, ha, heq⟩ := ih hp
        exact ⟨a, Nat.le_succ_of_le ha, heq⟩
  have hu' : u = nested a ∨ u = .long 0 := by simpa [heq, scanned, noScanTag] using hu
  rcases hu' with rfl | rfl
  · exact hnested a ha
  · exact nofun

/-- Every pair takes a place of the stack. -/
theorem run_pairs {n : Nat} : ∀ (a : Nat) (s : State) (stack : List (List Val)) (seen : List Nat)
    (k : Nat), a ≤ n → (∀ b ∈ seen, a < b) → StandsFor host s.table.posTable seen →
    s.table.objCounter = seen.length → s.limit = 2 ^ k → k ≤ 26 → stack.length < 2 ^ k →
    2 ^ 26 ≤ stack.length + a →
    ∃ fuel, Machine.run (step host (pairs n)) fuel (s, nested a, stack) =
      some (.error .outOfMemory)
  | 0, s, stack, seen, k, _, _, _, _, _, hk, hstack, hdeep => by
    have := Nat.pow_le_pow_right (by decide : 0 < 2) hk
    omega
  | a + 1, s, stack, seen, k, ha, hseen, htable, hcounter, hlimit, hk, hstack, hdeep => by
    have hget := lookup_pairs (show a < n by omega)
    rcases externLookupPosition_spec htable (a + 1) with
      ⟨pos, -, hpos⟩ | ⟨slot, hfound, -, hslot⟩
    · exact absurd (hseen _ (mem_of_getElem? hpos)) (Nat.lt_irrefl _)
    have hsharing : Flags.default.noSharing = false := rfl
    rcases externRecordLocation_spec hsharing htable hcounter hslot with herr | ⟨t, hok, ht⟩
    · exact ⟨1, by simp only [Machine.run, nested, step, hfound, hget, herr]⟩
    obtain ⟨table, hok, hpos, hcount⟩ : ∃ table,
        externRecordLocation host .default s.table (a + 1) slot = .ok table ∧
        StandsFor host table.posTable (seen ++ [a + 1]) ∧
        table.objCounter = (seen ++ [a + 1]).length := ⟨_, hok, ht, by simp [hcounter]⟩
    have hstep : step host (pairs n) (s, nested (a + 1), stack) =
        match pushItem ⟨table, s.size + 3, s.limit⟩ stack.length [nested a, .long 0] with
        | .error e => .inr (.error e)
        | .ok s => .inl (s, nested a, [.long 0] :: stack) := by
      simp only [nested, step, hfound, hget, hok]
      rfl
    -- the run goes on with the stack as large as `2 ^ k'`
    have hnext : ∀ k' ≤ 26, stack.length + 1 < 2 ^ k' →
        pushItem ⟨table, s.size + 3, s.limit⟩ stack.length [nested a, .long 0] =
          .ok ⟨table, s.size + 3, 2 ^ k'⟩ →
        ∃ fuel, Machine.run (step host (pairs n)) fuel (s, nested (a + 1), stack) =
          some (.error .outOfMemory) := by
      intro k' hk' hstack' hpush
      rw [hpush] at hstep
      obtain ⟨fuel, hrun⟩ := run_pairs a ⟨table, s.size + 3, 2 ^ k'⟩ ([.long 0] :: stack)
        (seen ++ [a + 1]) k' (Nat.le_of_succ_le ha) (by grind) hpos hcount rfl hk' hstack'
          (by grind)
      exact ⟨fuel + 1, by rw [Machine.run_succ_of_inl hstep, hrun]⟩
    by_cases hfull : 2 ^ k ≤ stack.length + 1
    · by_cases hmax : externStackMaxSize ≤ 2 * 2 ^ k
      · refine ⟨1, ?_⟩
        rw [Machine.run, hstep]
        simp [pushItem, externResizeStack, hlimit, hfull, hmax]
      · have hlt : k < 26 := Nat.lt_of_le_of_ne hk fun heq => hmax (by rw [heq]; decide)
        refine hnext (k + 1) hlt (by rw [Nat.pow_succ]; omega) ?_
        simp [pushItem, externResizeStack, hlimit, hfull, hmax, Nat.pow_succ, Nat.mul_comm]
    · exact hnext k hk (Nat.not_le.mp hfull) (by simp [pushItem, hlimit, hfull])

/-- **Pairs nested `2 ^ 26` deep are too much for the stack.** -/
theorem reachable_words_deep : MemoryOk (pairs (2 ^ 26)) (nested (2 ^ 26)) ∧
    ∀ host, ∃ fuel, camlObjReachableWords fuel host (pairs (2 ^ 26)) (nested (2 ^ 26)) =
      some (.error .outOfMemory) :=
  ⟨memoryOk_pairs _, fun host => run_pairs (2 ^ 26) _ [] [] 8 (Nat.le_refl _) nofun
    (standsFor_init host) rfl rfl (by decide) (by decide) (by simp)⟩

end TravLang.Runtime.Marshal.ReachableWords
