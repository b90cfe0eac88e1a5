import Mathlib.Data.Finset.Sort

/-!
# Dead code elimination (`asmcomp/deadcode.ml`)

The pass over the instructions of `asmcomp/mach.ml`. A register is known by its stamp; of an
operation only matters whether it is a tail call and whether `operation_is_pure`. What the pass
copies is left out: tests, tables of switches, debugging information.
-/

namespace TravLang.Deadcode

/-- `Cmm.rec_flag` -/
inductive RecFlag where
  | nonrecursive | recursive

/-- The fields of an instruction that hold registers -/
structure Regs where
  arg : List Nat := []
  live : Finset Nat := ∅

/-- An operation, and the field `res` of its instruction. A pure operation has a result: this is
what the pass asserts when it removes one. -/
structure Operation where
  tailcall : Bool
  pure : Bool
  res : List Nat
  res_ne_nil : pure → res ≠ []

mutual
/-- `instruction`. Nothing comes after an `Iend`. -/
inductive Instruction where
  | iend (r : Regs)
  | cons (desc : InstructionDesc) (r : Regs) (next : Instruction)

/-- `instruction_desc` -/
inductive InstructionDesc where
  | iop (op : Operation)
  | ireturn
  | iifthenelse (ifso ifnot : Instruction)
  | iswitch (cases : List Instruction)
  | icatch (recFlag : RecFlag) (handlers : List (Nat × Instruction)) (body : Instruction)
  | iexit (nfail : Nat)
  | itrywith (body handler : Instruction)
  | iraise
end

def Instruction.isEnd : Instruction → Bool
  | iend _ => true
  | cons .. => false

/-- The type `d` -/
structure D where
  i : Instruction
  regs : Finset Nat
  exits : Finset Nat

/-- The inner function of `append` -/
def appendRec : Instruction → Instruction → Instruction
  | .iend _, b => b
  | .cons desc r next, b => .cons desc r (appendRec next b)

def append (a b : Instruction) : Instruction := if b.isEnd then a else appendRec a b

/-- `add_live` on the exits of a list. Those of a handler come before the rest of the list, as they
do when `add_live` folds itself over them. -/
def addLive (recFlag : RecFlag) (handlers : List (Nat × D)) :
    List Nat → Finset Nat × List (Nat × D) → Finset Nat × List (Nat × D)
  | [], acc => acc
  | nfail :: l, (liveExits, usedHandlers) =>
    if nfail ∈ liveExits then addLive recFlag handlers l (liveExits, usedHandlers)
    else
      match h : handlers.lookup nfail with
      | none => addLive recFlag handlers l (insert nfail liveExits, usedHandlers)
      | some handler =>
        let exits := match recFlag with
          | .nonrecursive => []
          | .recursive => handler.exits.sort
        addLive recFlag handlers (exits ++ l)
          (insert nfail liveExits, (nfail, handler) :: usedHandlers)
termination_by l acc => (((handlers.map Prod.fst).toFinset \ acc.1).card, l.length)
decreasing_by
  · exact Prod.Lex.right _ (by simp)
  · exact Prod.Lex.right' _ (Finset.card_le_card (by grind)) (by simp)
  · obtain ⟨p, hp, hn⟩ := List.lookup_isSome_iff.1 (Option.isSome_of_eq_some h)
    have := List.mem_toFinset.2 (List.mem_map_of_mem (f := Prod.fst) hp)
    exact Prod.Lex.left _ _ (Finset.card_lt_card (Finset.ssubset_iff.2 ⟨nfail, by grind⟩))

def deadcode : Instruction → D
  | .iend r => ⟨.iend r, r.live ∪ r.arg.toFinset, ∅⟩
  | .cons desc r next =>
    let regs := r.live ∪ r.arg.toFinset
    match desc with
    | .ireturn | .iraise => ⟨.cons desc r next, regs, ∅⟩
    | .iop op =>
      if op.tailcall then ⟨.cons desc r next, regs, ∅⟩
      else
        let s := deadcode next
        -- The assertion is `op.res_ne_nil`.
        if op.pure ∧ Disjoint s.regs op.res.toFinset then s
        else ⟨.cons desc r s.i, regs, s.exits⟩
    | .iifthenelse ifso ifnot =>
      let ifso := deadcode ifso
      let ifnot := deadcode ifnot
      let s := deadcode next
      ⟨.cons (.iifthenelse ifso.i ifnot.i) r s.i, regs, s.exits ∪ (ifso.exits ∪ ifnot.exits)⟩
    | .iswitch cases =>
      let dc := cases.map deadcode
      let s := deadcode next
      ⟨.cons (.iswitch (dc.map D.i)) r s.i, regs, dc.foldl (fun acc c => acc ∪ c.exits) s.exits⟩
    | .icatch recFlag handlers body =>
      let body := deadcode body
      let s := deadcode next
      -- `Int.Map.of_list` keeps the last binding of an index.
      let handlers := (handlers.map fun h => (h.1, deadcode h.2)).reverse
      let (liveExits, usedHandlers) := addLive recFlag handlers body.exits.sort (∅, [])
      let liveExits := liveExits \ (usedHandlers.map Prod.fst).toFinset
      let liveExits := match recFlag with
        | .recursive => liveExits
        | .nonrecursive => usedHandlers.foldl (fun exits h => h.2.exits ∪ exits) liveExits
      let exits := s.exits ∪ liveExits
      match usedHandlers with
      | [] => ⟨append body.i s.i, body.regs, exits⟩
      | _ =>
        let handlers := usedHandlers.map fun h => (h.1, h.2.i)
        ⟨.cons (.icatch recFlag handlers body.i) r s.i, r.live, exits⟩
    | .iexit nfail => ⟨.cons desc r next, r.live, {nfail}⟩
    | .itrywith body handler =>
      let body := deadcode body
      let handler := deadcode handler
      let s := deadcode next
      ⟨.cons (.itrywith body.i handler.i) r s.i, r.live, s.exits ∪ (body.exits ∪ handler.exits)⟩
decreasing_by
  all_goals try decreasing_tactic
  have := List.sizeOf_lt_of_mem ‹h ∈ handlers›
  cases h
  simp_all
  omega

/-! ## Exits -/

/-- The instructions that a description holds -/
def InstructionDesc.subs : InstructionDesc → List Instruction
  | iifthenelse ifso ifnot => [ifso, ifnot]
  | iswitch cases => cases
  | icatch _ handlers body => body :: handlers.map Prod.snd
  | itrywith body handler => [body, handler]
  | _ => []

/-- `P` holds of every instruction of some code and of the code after it. -/
inductive Everywhere (P : InstructionDesc → Instruction → Prop) : Instruction → Prop
  | iend {r : Regs} : Everywhere P (.iend r)
  | cons {desc : InstructionDesc} {r : Regs} {next : Instruction} (here : P desc next)
      (subs : ∀ i ∈ desc.subs, Everywhere P i) (after : Everywhere P next) :
      Everywhere P (.cons desc r next)

attribute [simp] Everywhere.iend

@[simp] theorem everywhere_cons {P : InstructionDesc → Instruction → Prop} {desc : InstructionDesc}
    {r : Regs} {next : Instruction} : Everywhere P (.cons desc r next) ↔
      P desc next ∧ (∀ i ∈ desc.subs, Everywhere P i) ∧ Everywhere P next := by
  constructor
  · rintro ⟨⟩
    tauto
  · rintro ⟨h, hsubs, hnext⟩
    exact .cons h hsubs hnext

/-- An `Iexit` is immediately followed by `Iend`, as `Linearize` asserts. -/
def ExitEnds (desc : InstructionDesc) (next : Instruction) : Prop :=
  ∀ nfail, desc = .iexit nfail → next.isEnd

/-- The last instruction before the end is an `Iexit`. -/
def endsInExit : Instruction → Bool
  | .iend _ => false
  | .cons (.iexit _) _ _ => true
  | .cons _ _ next => endsInExit next

/-- The exits at the end of some code, or at the end of the body of a catch in it -/
def lastExits : Instruction → List Nat
  | .iend _ => []
  | .cons (.iexit nfail) _ _ => [nfail]
  | .cons (.icatch _ _ body) _ next => lastExits body ++ lastExits next
  | .cons _ _ next => lastExits next

/-- Control does not go on after the instruction. -/
def InstructionDesc.stops : InstructionDesc → Bool
  | ireturn | iraise => true
  | iop op => op.tailcall
  | _ => false

/-- Nothing follows an instruction that stops. If code follows a catch, an exit at the end of its
body is to one of its handlers. -/
def CatchUsed (desc : InstructionDesc) (next : Instruction) : Prop :=
  (desc.stops → next.isEnd) ∧
  ∀ recFlag handlers body, desc = .icatch recFlag handlers body → next.isEnd ∨
    ∀ nfail ∈ lastExits body, ∃ h ∈ handlers, h.1 = nfail

theorem exitEnds_appendRec {a b : Instruction} (ha : Everywhere ExitEnds a)
    (hend : endsInExit a = false) (hb : Everywhere ExitEnds b) :
    Everywhere ExitEnds (appendRec a b) := by
  induction ha with
  | iend => exact hb
  | @cons desc r next here subs after _ ih =>
    refine .cons ?_ subs (ih ?_)
    · rintro nfail rfl
      simp [endsInExit] at hend
    · cases desc <;> simp_all [endsInExit]

section
variable {recFlag : RecFlag} {hs : List (Nat × D)} {l : List Nat}
  {acc : Finset Nat × List (Nat × D)}

theorem mem_of_mem_addLive : ∀ h ∈ (addLive recFlag hs l acc).2, h ∈ acc.2 ∨ h ∈ hs := by
  fun_induction addLive recFlag hs l acc <;> grind [List.lookup_eq_some_iff]

theorem mem_addLive {n : Nat} (h : n ∈ acc.1 ∨ n ∈ l) : n ∈ (addLive recFlag hs l acc).1 := by
  fun_induction addLive recFlag hs l acc <;> grind

/-- The handler of an exit that is not live yet becomes used. -/
theorem addLive_ne_nil (h : acc.2 ≠ [] ∨ ∃ n ∈ l, n ∉ acc.1 ∧ (hs.lookup n).isSome) :
    (addLive recFlag hs l acc).2 ≠ [] := by
  fun_induction addLive recFlag hs l acc <;> grind

end

theorem endsInExit_appendRec (a b : Instruction) :
    endsInExit (appendRec a b) = (endsInExit a || endsInExit b) := by
  fun_induction appendRec a b with
  | case1 => simp [endsInExit]
  | case2 desc r next b ih => cases desc <;> simp [endsInExit, ih]

theorem mem_foldl_exits {n : Nat} {acc : Finset Nat} (l : List D) (h : n ∈ acc) :
    n ∈ l.foldl (fun acc c => acc ∪ c.exits) acc := by
  induction l generalizing acc with
  | nil => exact h
  | cons c l ih => exact ih (Finset.mem_union_left _ h)

theorem endsInExit_of_isEnd {i : Instruction} (h : i.isEnd) : endsInExit i = false := by
  cases i with
  | iend => rfl
  | cons => cases h

/-- If the result ends in an exit, it is one of the live exits and was at the end of the code. -/
theorem exists_lastExit {i : Instruction} (hused : Everywhere CatchUsed i)
    (h : endsInExit (deadcode i).i) : ∃ nfail ∈ lastExits i, nfail ∈ (deadcode i).exits := by
  induction hused with
  | iend => simp [deadcode, endsInExit] at h
  | @cons desc r next here subs after ihsubs ihnext =>
    have hstop : desc.stops → endsInExit (.cons desc r next) = false := fun hs => by
      have := endsInExit_of_isEnd (here.1 hs)
      cases desc <;> simp_all [endsInExit, InstructionDesc.stops]
    cases desc with
    | ireturn | iraise => simp_all [deadcode, InstructionDesc.stops]
    | iexit nfail => exact ⟨nfail, by simp [lastExits], by simp [deadcode]⟩
    | iop op =>
      simp only [deadcode, lastExits] at h ⊢
      by_cases htail : op.tailcall
      · simp_all [InstructionDesc.stops]
      · rw [if_neg htail] at h ⊢
        by_cases hpure : op.pure ∧ Disjoint (deadcode next).regs op.res.toFinset
        · rw [if_pos hpure] at h ⊢
          exact ihnext h
        · rw [if_neg hpure] at h ⊢
          exact ihnext h
    | iifthenelse a b | itrywith a b =>
      simp only [deadcode, endsInExit] at h ⊢
      obtain ⟨n, hn, hmem⟩ := ihnext h
      exact ⟨n, hn, by simp [hmem]⟩
    | iswitch cases =>
      simp only [deadcode, endsInExit] at h ⊢
      obtain ⟨n, hn, hmem⟩ := ihnext h
      exact ⟨n, hn, mem_foldl_exits _ hmem⟩
    | icatch recFlag handlers body =>
      have ihbody := ihsubs body (by simp [InstructionDesc.subs])
      simp only [deadcode, lastExits, List.mem_append] at h ⊢
      split at h
      · next hlive =>
        have hends : endsInExit (deadcode body).i ∨ endsInExit (deadcode next).i := by
          dsimp only [append] at h
          split at h
          · exact .inl h
          · rwa [endsInExit_appendRec, Bool.or_eq_true] at h
        rcases hends with hends | hends
        · obtain ⟨n, hn, hmem⟩ := ihbody hends
          have hadd : n ∈ (addLive recFlag (handlers.map fun h => (h.1, deadcode h.2)).reverse
              (deadcode body).exits.sort (∅, [])).1 :=
            mem_addLive (.inr ((Finset.mem_sort _).2 hmem))
          refine ⟨n, .inl hn, ?_⟩
          cases recFlag <;> simp [hlive, hadd]
        · obtain ⟨n, hn, hmem⟩ := ihnext hends
          exact ⟨n, .inr hn, by simp [hmem]⟩
      · obtain ⟨n, hn, hmem⟩ := ihnext h
        exact ⟨n, .inr hn, by simp [hmem]⟩

/-- Two catches with the handlers `1` and `n`. The body of the inner one is an exit to `1`. -/
def nestedCatch (n : Nat) : Instruction :=
  let inner := .icatch .nonrecursive [(n, .iend {})] (.cons (.iexit 1) {} (.iend {}))
  .cons (.icatch .nonrecursive [(1, .iend {})] (.cons inner {} (.cons .ireturn {} (.iend {})))) {}
    (.iend {})

attribute [local simp] nestedCatch deadcode addLive append appendRec Instruction.isEnd ExitEnds
  CatchUsed lastExits InstructionDesc.stops InstructionDesc.subs List.lookup_cons

end TravLang.Deadcode
