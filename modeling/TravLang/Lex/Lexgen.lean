import TravLang.Lib.ParallelMoves
import TravLang.Stdlib.Lexing.Basic

/-!
# Memory cells and moves (`lex/lexgen.ml`)

The cells in which an automaton keeps the positions of its tags, and the moves between them on a
transition. `sort_mvs` turns moves that happen at once into a sequence of moves. It has no bound on
its recursion: the model has one, and says when it is reached.

Sets of integers are increasing lists. Maps are the lists of their bindings, in the order of their
keys.
-/

namespace TravLang.Lexgen

open List
open Lexing (MemoryAction memoryAction)
open ParallelMoves

inductive Exn where
  /-- `Memory_overflow` -/
  | memoryOverflow
  /-- `assert false` -/
  | assertFailure
  /-- the recursion has not ended -/
  | outOfFuel
  deriving DecidableEq, Repr

structure TagInfo where
  id : String
  start : Bool
  action : Nat
  deriving DecidableEq, Repr

/-! ## Cells -/

/-- `next_mem_cell`, `temp_pending` and `tag_cells` -/
structure Cells where
  nextMemCell : Nat
  tempPending : Bool
  tagCells : TagInfo → List Nat
  tagCells_lt : ∀ t, ∀ n ∈ tagCells t, n < nextMemCell

/-- `Ints.add` -/
def addInt (n : Nat) : List Nat → List Nat
  | [] => [n]
  | m :: s => if n < m then n :: m :: s else if n = m then m :: s else m :: addInt n s

theorem mem_addInt {n k : Nat} {s : List Nat} : k ∈ addInt n s ↔ k = n ∨ k ∈ s := by
  fun_induction addInt n s with
  | case1 => simp
  | case2 => simp
  | case3 s m => simp
  | case4 m s _ _ ih => simp [ih, or_left_comm]

/-- `reset_state_partial` -/
def resetStatePartial (ntags : Nat) : Cells where
  nextMemCell := ntags
  tempPending := false
  tagCells _ := []
  tagCells_lt := nofun

def doAllocTemp (cells : Cells) : Nat × Cells :=
  (cells.nextMemCell, { cells with tempPending := true })

/-- A cell for a tag that was never in use -/
def newCell (cells : Cells) (t : TagInfo) : Cells where
  nextMemCell := cells.nextMemCell + 1
  tempPending := false
  tagCells := Function.update cells.tagCells t (addInt cells.nextMemCell (cells.tagCells t))
  tagCells_lt := by
    intro t' n hn
    by_cases ht : t' = t
    · rw [ht, Function.update_self, mem_addInt] at hn
      rcases hn with rfl | hn
      · exact Nat.lt_succ_self _
      · exact Nat.lt_succ_of_lt (cells.tagCells_lt t n hn)
    · rw [Function.update_of_ne ht] at hn
      exact Nat.lt_succ_of_lt (cells.tagCells_lt t' n hn)

def doAllocCell (used : List Nat) (t : TagInfo) (cells : Cells) : Except Exn (Nat × Cells) :=
  match (cells.tagCells t).filter (· ∉ used) with
  | n :: _ => .ok (n, cells)
  | [] =>
    if cells.nextMemCell ≥ 255 then .error .memoryOverflow
    else .ok (cells.nextMemCell, newCell cells t)

variable {cells cells' : Cells}

/-- The bound on the number of cells is kept. -/
theorem doAllocCell_lt {used : List Nat} {t : TagInfo} {n : Nat}
    (h : doAllocCell used t cells = .ok (n, cells')) (hle : cells.nextMemCell ≤ 255) :
    n < 255 ∧ cells'.nextMemCell ≤ 255 := by
  unfold doAllocCell at h
  split at h
  · next n' rest hfilter =>
    obtain ⟨rfl, rfl⟩ := Prod.mk.inj (Except.ok.inj h)
    have hmem : n' ∈ (cells.tagCells t).filter (· ∉ used) := hfilter ▸ mem_cons_self
    exact ⟨Nat.lt_of_lt_of_le (cells.tagCells_lt t n' (mem_of_mem_filter hmem)) hle, hle⟩
  · next =>
    split at h
    · cases h
    · next hlt =>
      obtain ⟨rfl, rfl⟩ := Prod.mk.inj (Except.ok.inj h)
      exact ⟨Nat.lt_of_not_le hlt, Nat.lt_of_not_le hlt⟩

/-- A `TagMap` of addresses. New addresses are negative. -/
abbrev TagMap := List (TagInfo × Int)

def isNewAddr (a : Int) : Bool := a < 0

def isOldAddr (a : Int) : Bool := a ≥ 0

def oldInMap (m : TagMap) (r : List Nat) : List Nat :=
  m.foldl (fun r (_, addr) => if isOldAddr addr then addInt addr.toNat r else r) r

def allocMap (used : List Nat) (m : TagMap) (mvs : List Nat) (cells : Cells) :
    Except Exn (TagMap × List Nat × Cells) :=
  m.foldlM (fun (r, mvs, cells) (tag, a) => do
    if isNewAddr a then
      let (a, cells) ← doAllocCell used tag cells
      return (r ++ [(tag, (a : Int))], addInt a mvs, cells)
    else return (r ++ [(tag, a)], mvs, cells)) ([], mvs, cells)

/-- Cells and moves below the bound -/
def Bounded (mvs : List Nat) (cells : Cells) : Prop :=
  (∀ n ∈ mvs, n < 255) ∧ cells.nextMemCell ≤ 255

theorem allocMap_bounded {used mvs mvs' : List Nat} {m m' : TagMap}
    (h : allocMap used m mvs cells = .ok (m', mvs', cells')) (hb : Bounded mvs cells) :
    Bounded mvs' cells' := by
  refine Result.foldlM_preserves (I := fun acc => Bounded acc.2.1 acc.2.2) ?_ hb h
  rintro ⟨tag, a⟩ _ ⟨r, mvs, cells⟩ acc' hb hstep
  dsimp only at hstep
  split at hstep
  · obtain ⟨⟨n, cells1⟩, halloc, heq⟩ := Result.bind_eq_ok.mp hstep
    obtain rfl := Except.ok.inj heq
    obtain ⟨hn, hle⟩ := doAllocCell_lt halloc hb.2
    refine ⟨fun k hk => ?_, hle⟩
    rcases mem_addInt.mp hk with rfl | hk
    · exact hn
    · exact hb.1 k hk
  · obtain rfl := Except.ok.inj hstep
    exact hb

structure DfaState where
  final : Int × Int × TagMap
  others : List (Int × Int × TagMap)

def createNewState (st : DfaState) (cells : Cells) :
    Except Exn (DfaState × List MemoryAction × Cells) := do
  let (act, _, mAct) := st.final
  let used := st.others.foldl (fun r (_, _, m) => oldInMap m r) (oldInMap mAct [])
  let (newMAct, mvs, cells) ← allocMap used mAct [] cells
  let (newO, mvs, cells) ← st.others.foldlM (fun (r, mvs, cells) (k, x, m) => do
    let (m, mvs, cells) ← allocMap used m mvs cells
    return (r ++ [(k, x, m)], mvs, cells)) ([], mvs, cells)
  return ({ final := (act, 0, newMAct), others := newO },
    mvs.foldl (fun r x => .set x :: r) [], cells)

/-- A new state sets cells below the bound. -/
theorem createNewState_lt {st st' : DfaState} {l : List MemoryAction}
    (h : createNewState st cells = .ok (st', l, cells')) (hle : cells.nextMemCell ≤ 255) :
    ∀ mv ∈ l, ∃ d < 255, mv = .set d := by
  obtain ⟨⟨mAct, mvs1, cells1⟩, hact, h⟩ := Result.bind_eq_ok.mp h
  obtain ⟨⟨others, mvs2, cells2⟩, hothers, h⟩ := Result.bind_eq_ok.mp h
  obtain ⟨-, rfl, -⟩ := Prod.mk.inj (Except.ok.inj h)
  have hb1 : Bounded mvs1 cells1 := allocMap_bounded hact ⟨nofun, hle⟩
  have hb2 : Bounded mvs2 cells' := by
    refine Result.foldlM_preserves (I := fun acc => Bounded acc.2.1 acc.2.2) ?_ hb1 hothers
    rintro ⟨k, x, m⟩ _ ⟨r, mvs, cells⟩ acc' hb hstep
    obtain ⟨⟨m', mvs', cells'⟩, halloc, heq⟩ := Result.bind_eq_ok.mp hstep
    obtain rfl := Except.ok.inj heq
    exact allocMap_bounded halloc hb
  have hfold : ∀ (s : List Nat) (r : List MemoryAction),
      s.foldl (fun r x => MemoryAction.set x :: r) r = (s.map MemoryAction.set).reverse ++ r := by
    intro s
    induction s with
    | nil => exact fun _ => rfl
    | cons x s ih => intro r; simp [ih]
  intro mv hmv
  rw [hfold, append_nil, mem_reverse, mem_map] at hmv
  obtain ⟨d, hd, rfl⟩ := hmv
  exact ⟨d, hb2.1 d hd, rfl⟩

/-! ## Moves -/

def dest : MemoryAction → Nat
  | .copy d _ => d
  | .set d => d

def orig : MemoryAction → Int
  | .copy _ o => o
  | .set _ => -1

/-- A move with the cell `d'` as its source in the place of `d` -/
def redirectFrom (d d' : Nat) (mv : MemoryAction) : MemoryAction :=
  if orig mv = d then .copy (dest mv) d' else mv

/-- `do_rec` of `sort_mvs` -/
def doRec : Nat → List MemoryAction → List MemoryAction → Cells →
    Except Exn (List MemoryAction × Cells)
  | 0, _, _, _ => .error .outOfFuel
  | _ + 1, r, [], cells => .ok (r, cells)
  | fuel + 1, r, mvs, cells =>
    let dests := mvs.map fun mv => (dest mv : Int)
    let (rem, here) := mvs.partition fun mv => orig mv ∈ dests
    match here with
    | [] =>
      match rem with
      | .copy d _ :: _ => do
        let (d', cells) := doAllocTemp cells
        let (l, cells) ← doRec fuel r (rem.map (redirectFrom d d')) cells
        return (.copy d' d :: l, cells)
      | _ => .error .assertFailure
    | _ => doRec fuel (here ++ r) rem cells

def sortMvs (fuel : Nat) (mvs : List MemoryAction) (cells : Cells) :
    Except Exn (List MemoryAction × Cells) := doRec fuel [] mvs cells

/-! ## The meaning of moves -/

def toMove : MemoryAction → Move Nat
  | .copy d s => ⟨d, some s⟩
  | .set d => ⟨d, none⟩

@[simp] theorem toMove_dest (mv : MemoryAction) : (toMove mv).dest = dest mv := by
  cases mv <;> rfl

theorem dests_toMove (mvs : List MemoryAction) : dests (mvs.map toMove) = mvs.map dest := by
  simp [dests]

/-- The test of `do_rec` -/
theorem blocked_toMove {mvs : List MemoryAction} {mv : MemoryAction} :
    Blocked (mvs.map toMove) (toMove mv) ↔ orig mv ∈ mvs.map fun mv => (dest mv : Int) := by
  rw [Blocked, dests_toMove]
  cases mv with
  | copy d s =>
    simp only [toMove, orig, Option.mem_def, Option.some.injEq, mem_map, exists_eq_left',
      Int.natCast_inj]
  | set d => simp [toMove, orig]

theorem toMove_redirectFrom (d d' : Nat) (mv : MemoryAction) :
    toMove (redirectFrom d d' mv) = redirect d d' (toMove mv) := by
  cases mv with
  | copy e s =>
    by_cases hs : s = d
    · simp [redirectFrom, redirect, toMove, orig, dest, hs]
    · simp only [redirectFrom, redirect, toMove, orig, hs, Int.natCast_inj, if_false,
        Option.some.injEq]
  | set e => simp [redirectFrom, redirect, toMove, orig, show ¬(-1 : Int) = d by omega]

/-- The moves on a memory of integers -/
def runMoves (pos : Int) (st : Nat → Int) (l : List MemoryAction) : Nat → Int :=
  run pos st (l.map toMove)

def parMoves (pos : Int) (st : Nat → Int) (mvs : List MemoryAction) : Nat → Int :=
  par pos st (mvs.map toMove)

/-- All cycles go through the destination of the first move whose value comes from a cycle. -/
def CyclesThroughFirst (mvs : List MemoryAction) : Prop :=
  ∀ pre mv post, mvs = pre ++ mv :: post →
    (∀ m ∈ pre, ¬FromCycle (mvs.map toMove) (dest m)) → FromCycle (mvs.map toMove) (dest mv) →
    ∀ b, OnCycle (mvs.map toMove) b → Relation.TransGen (Copies (mvs.map toMove)) b (dest mv)

section Sorting

variable {mvs rem here r l : List MemoryAction} {cells : Cells} {mv : MemoryAction} {fuel : Nat}
  {P : Nat → Prop}

/-- The moves that wait for others -/
def blocked (mvs : List MemoryAction) : List MemoryAction :=
  mvs.filter fun mv => orig mv ∈ mvs.map fun mv => (dest mv : Int)

/-- The moves that can be done last -/
def unblocked (mvs : List MemoryAction) : List MemoryAction :=
  mvs.filter fun mv => !decide (orig mv ∈ mvs.map fun mv => (dest mv : Int))

theorem mem_blocked :
    mv ∈ blocked mvs ↔ mv ∈ mvs ∧ Blocked (mvs.map toMove) (toMove mv) := by
  rw [blocked, mem_filter, decide_eq_true_eq, blocked_toMove]

theorem mem_unblocked :
    mv ∈ unblocked mvs ↔ mv ∈ mvs ∧ ¬Blocked (mvs.map toMove) (toMove mv) := by
  rw [unblocked, mem_filter, Bool.not_eq_true', decide_eq_false_iff_not, blocked_toMove]

theorem perm_blocked_append (mvs : List MemoryAction) :
    mvs.Perm (blocked mvs ++ unblocked mvs) := (filter_append_perm _ mvs).symm

theorem partition_eq (mvs : List MemoryAction) :
    (mvs.partition fun mv => orig mv ∈ mvs.map fun mv => (dest mv : Int)) =
      (blocked mvs, unblocked mvs) := partition_eq_filter_filter

theorem doRec_nil (fuel : Nat) : doRec (fuel + 1) r [] cells = .ok (r, cells) := rfl

/-- A step with moves that can be done last -/
theorem doRec_unblocked (fuel : Nat) (h : unblocked mvs ≠ []) :
    doRec (fuel + 1) r mvs cells = doRec fuel (unblocked mvs ++ r) (blocked mvs) cells := by
  cases mvs with
  | nil => exact absurd rfl h
  | cons mv mvs =>
    obtain ⟨m, here, hhere⟩ := exists_cons_of_ne_nil h
    simp only [doRec, partition_eq, hhere]

/-- A step that cuts a cycle -/
theorem doRec_cut (fuel : Nat) {d s : Nat} {mvs' : List MemoryAction}
    (hmvs : mvs = .copy d s :: mvs') (h : unblocked mvs = []) :
    doRec (fuel + 1) r mvs cells =
      (doRec fuel r (mvs.map (redirectFrom d cells.nextMemCell))
        { cells with tempPending := true }).bind
        fun (l, cells') => .ok (.copy cells.nextMemCell d :: l, cells') := by
  have hblocked : blocked mvs = mvs := by
    refine filter_eq_self.mpr fun mv hmv => ?_
    have := filter_eq_nil_iff.mp h mv hmv
    simpa using this
  subst hmvs
  simp only [doRec, partition_eq, h]
  rw [hblocked]
  rfl

theorem length_blocked (h : unblocked mvs ≠ []) : (blocked mvs).length < mvs.length := by
  have hlen := (perm_blocked_append mvs).length_eq
  have hpos := length_pos_iff.mpr h
  rw [length_append] at hlen
  omega

theorem nodup_blocked (h : (mvs.map dest).Nodup) : ((blocked mvs).map dest).Nodup :=
  h.sublist (List.filter_sublist.map dest)

/-- The moves that can be done last, after the others -/
theorem runMoves_unblocked (hnodup : (mvs.map dest).Nodup) (pos : Int) (st : Nat → Int) :
    runMoves pos (parMoves pos st (blocked mvs)) (unblocked mvs) = parMoves pos st mvs := by
  refine run_rest ?_ (by rwa [dests_toMove]) fun m hm => ?_
  · rw [← map_append]
    exact (perm_blocked_append mvs).map toMove
  · obtain ⟨mv, hmv, rfl⟩ := mem_map.mp hm
    exact (mem_unblocked.mp hmv).2

/-- Without cycles no temporary is needed. -/
theorem doRec_acyclic (hfuel : mvs.length < fuel) (hnodup : (mvs.map dest).Nodup)
    (h : ∀ a, ¬OnCycle (mvs.map toMove) a) :
    ∃ l, doRec fuel r mvs cells = .ok (l, cells) ∧
      ∀ pos st, runMoves pos st l = runMoves pos (parMoves pos st mvs) r := by
  induction fuel generalizing mvs r with
  | zero => exact absurd hfuel (Nat.not_lt_zero _)
  | succ fuel ih =>
    by_cases hne : mvs = []
    · subst hne
      exact ⟨r, doRec_nil fuel, fun _ _ => rfl⟩
    · obtain ⟨m, hm, hnot⟩ := exists_not_blocked (by simpa using hne) h
      obtain ⟨mv, hmv, rfl⟩ := mem_map.mp hm
      have hun : unblocked mvs ≠ [] := ne_nil_of_mem (mem_unblocked.mpr ⟨hmv, hnot⟩)
      have hsub : ∀ m ∈ (blocked mvs).map toMove, m ∈ mvs.map toMove := fun m hm =>
        map_subset _ (filter_subset_self _) hm
      obtain ⟨l, hrun, hl⟩ := ih (r := unblocked mvs ++ r)
        (Nat.lt_of_lt_of_le (length_blocked hun) (Nat.le_of_lt_succ hfuel)) (nodup_blocked hnodup)
        fun a ha => h a (Relation.TransGen.mono (fun _ _ hab => hsub _ hab) _ _ ha)
      refine ⟨l, by rw [doRec_unblocked fuel hun, hrun], fun pos st => ?_⟩
      rw [hl, runMoves, map_append, run_append]
      exact congrArg (fun st => runMoves pos st r) (runMoves_unblocked hnodup pos st)

/-- The condition on cycles stays when moves that can be done last are left out. -/
theorem CyclesThroughFirst.blocked (hnodup : (mvs.map dest).Nodup) (h : CyclesThroughFirst mvs) :
    CyclesThroughFirst (blocked mvs) := by
  have hsub : ∀ m ∈ (Lexgen.blocked mvs).map toMove, m ∈ mvs.map toMove := fun m hm =>
    map_subset _ (filter_subset_self _) hm
  have hall : ∀ m ∈ mvs.map toMove, Blocked (mvs.map toMove) m →
      m ∈ (Lexgen.blocked mvs).map toMove := by
    intro m hm hb
    obtain ⟨mv, hmv, rfl⟩ := mem_map.mp hm
    exact mem_map_of_mem (mem_blocked.mpr ⟨hmv, hb⟩)
  intro pre' mv post' heq hpre hmv b hb
  rw [fromCycle_rest hsub hall] at hmv
  -- the moves before `mv` in the whole list are those of `pre'` and moves that can be done last
  obtain ⟨pre, tail, hmvs, hpre', htail⟩ := filter_eq_append_iff.mp heq
  obtain ⟨skipped, post, htail', hskipped, _, _⟩ := filter_eq_cons_iff.mp htail
  have hmvs' : mvs = (pre ++ skipped) ++ mv :: post := by
    rw [hmvs, htail', append_assoc]
  have hfirst : ∀ m ∈ pre ++ skipped, ¬FromCycle (mvs.map toMove) (dest m) := by
    intro m hm
    have hmem : m ∈ mvs := by
      rw [hmvs']
      exact mem_append_left _ hm
    by_cases hbl : m ∈ Lexgen.blocked mvs
    · rcases mem_append.mp hm with hm | hm
      · rw [← fromCycle_rest hsub hall]
        refine hpre m ?_
        rw [← hpre']
        exact mem_filter.mpr ⟨hm, (mem_filter.mp hbl).2⟩
      · exact absurd (mem_filter.mp hbl).2 (hskipped m hm)
    · have hnot : ¬Blocked (mvs.map toMove) (toMove m) := fun hb =>
        hbl (mem_blocked.mpr ⟨hmem, hb⟩)
      rw [← toMove_dest]
      exact not_fromCycle (by rwa [dests_toMove]) (mem_map_of_mem hmem) hnot
  exact transGen_rest hall (h _ mv post hmvs' hfirst hmv b ((onCycle_rest hsub hall).mp hb))
    hmv.mem_dests

/-- The moves do not use the cell. -/
def Unused (t : Nat) (mvs : List MemoryAction) : Prop := ∀ mv ∈ mvs, dest mv ≠ t ∧ orig mv ≠ t

theorem Unused.src {t : Nat} (h : Unused t mvs) : ∀ m ∈ mvs.map toMove, m.src ≠ some t := by
  intro m hm
  obtain ⟨mv, hmv, rfl⟩ := mem_map.mp hm
  cases mv with
  | copy d s => exact fun hs => (h _ hmv).2 (congrArg Int.ofNat (Option.some.inj hs))
  | set d => exact nofun

/-- The result is the parallel assignment, apart from the temporary. -/
theorem doRec_parallel (hfuel : mvs.length + 1 < fuel) (hnodup : (mvs.map dest).Nodup)
    (h : CyclesThroughFirst mvs) (hmvs : Unused cells.nextMemCell mvs)
    (hr : Unused cells.nextMemCell r) :
    ∃ l cells', doRec fuel r mvs cells = .ok (l, cells') ∧ ∀ pos st, ∀ c ≠ cells.nextMemCell,
      runMoves pos st l c = runMoves pos (parMoves pos st mvs) r c := by
  induction fuel generalizing mvs r with
  | zero => exact absurd hfuel (Nat.not_lt_zero _)
  | succ fuel ih =>
    by_cases hun : unblocked mvs = []
    · cases hcase : mvs with
      | nil => exact ⟨r, cells, doRec_nil fuel, fun _ _ _ _ => rfl⟩
      | cons mv mvs' =>
        rw [← hcase]
        have hblocked : ∀ m ∈ mvs.map toMove, Blocked (mvs.map toMove) m := by
          intro m hm
          obtain ⟨mv, hmv, rfl⟩ := mem_map.mp hm
          by_contra hnot
          exact ne_nil_of_mem (mem_unblocked.mpr ⟨hmv, hnot⟩) hun
        have hmem : mv ∈ mvs := hcase ▸ mem_cons_self
        obtain ⟨s, hs, -⟩ := hblocked _ (mem_map_of_mem hmem)
        cases mv with
        | set d => cases hs
        | copy d s' =>
          -- the first move is on the only cycle: reading the temporary in its place cuts it
          have hd : FromCycle (mvs.map toMove) d :=
            fromCycle_of_blocked hblocked (mem_map_of_mem (mem_map_of_mem hmem))
          have hcycles := h [] (.copy d s') mvs' hcase nofun hd
          have htd : cells.nextMemCell ∉ dests (mvs.map toMove) := by
            rw [dests_toMove]
            intro hmem'
            obtain ⟨mv, hmv, heq⟩ := mem_map.mp hmem'
            exact (hmvs mv hmv).1 heq
          have hdt : d ≠ cells.nextMemCell := (hmvs _ hmem).1
          have hnodup' : (dests (mvs.map toMove)).Nodup := by rwa [dests_toMove]
          have hmap : (mvs.map (redirectFrom d cells.nextMemCell)).map toMove =
              (mvs.map toMove).map (redirect d cells.nextMemCell) := by
            simp [toMove_redirectFrom]
          have hlen : (mvs.map (redirectFrom d cells.nextMemCell)).length < fuel := by
            rw [length_map]
            exact Nat.lt_of_succ_lt_succ hfuel
          have hdests : ((mvs.map (redirectFrom d cells.nextMemCell)).map dest).Nodup := by
            rw [← dests_toMove, hmap, dests_redirect, dests_toMove]
            exact hnodup
          obtain ⟨l, hrun, hl⟩ : ∃ l, doRec fuel r (mvs.map (redirectFrom d cells.nextMemCell))
              { cells with tempPending := true } =
                .ok (l, { cells with tempPending := true }) ∧ _ :=
            doRec_acyclic hlen hdests fun a =>
              hmap ▸ not_onCycle_redirect hnodup' htd hdt hcycles
          refine ⟨.copy cells.nextMemCell d :: l, _, by rw [doRec_cut fuel hcase hun, hrun]; rfl,
            fun pos st c hc => ?_⟩
          show runMoves pos (Function.update st cells.nextMemCell (st d)) l c = _
          rw [hl, parMoves, hmap]
          exact run_congr (par_redirect hnodup' hmvs.src) hr.src c hc
    · obtain ⟨l, cells', hrun, hl⟩ := ih (r := unblocked mvs ++ r)
        (Nat.lt_of_lt_of_le (Nat.succ_lt_succ (length_blocked hun)) (Nat.le_of_lt_succ hfuel))
        (nodup_blocked hnodup) (h.blocked hnodup)
        (fun mv hmv => hmvs mv (mem_of_mem_filter hmv)) (forall_mem_append.mpr
          ⟨fun mv hmv => hmvs mv (mem_of_mem_filter hmv), hr⟩)
      refine ⟨l, cells', by rw [doRec_unblocked fuel hun, hrun], fun pos st c hc => ?_⟩
      rw [hl pos st c hc, runMoves, map_append, run_append]
      exact congrFun (congrArg (fun st => runMoves pos st r) (runMoves_unblocked hnodup pos st)) c

/-- What a step of `do_rec` with a result is. -/
theorem doRec_cases (h : doRec (fuel + 1) r mvs cells = .ok (l, cells')) :
    mvs = [] ∧ l = r ∨
    doRec fuel (unblocked mvs ++ r) (blocked mvs) cells = .ok (l, cells') ∨
    ∃ d s mvs' l', mvs = .copy d s :: mvs' ∧ l = .copy cells.nextMemCell d :: l' ∧
      doRec fuel r (mvs.map (redirectFrom d cells.nextMemCell))
        { cells with tempPending := true } = .ok (l', cells') := by
  by_cases hun : unblocked mvs = []
  · match mvs, hun, h with
    | [], _, h =>
      rw [doRec_nil, Except.ok.injEq, Prod.mk.injEq] at h
      exact .inl ⟨rfl, h.1.symm⟩
    | .set d :: mvs, hun, _ =>
      have hset : MemoryAction.set d ∈ unblocked (.set d :: mvs) :=
        mem_unblocked.mpr ⟨mem_cons_self, fun ⟨_, hs, _⟩ => nomatch hs⟩
      exact absurd hun (ne_nil_of_mem hset)
    | .copy d s :: mvs, hun, h =>
      rw [doRec_cut fuel rfl hun] at h
      obtain ⟨⟨l', _⟩, hrun, heq⟩ := Result.bind_eq_ok.mp h
      obtain ⟨rfl, rfl⟩ := Prod.mk.inj (Except.ok.inj heq)
      exact .inr (.inr ⟨d, s, mvs, l', rfl, rfl, hrun⟩)
  · rw [doRec_unblocked fuel hun] at h
    exact .inr (.inl h)

def cellsOf : MemoryAction → List Nat
  | .copy d s => [d, s]
  | .set d => [d]

theorem cellsOf_redirectFrom {d d' : Nat} (h : ∀ c ∈ cellsOf mv, P c)
    (hd' : P d') :
    ∀ c ∈ cellsOf (redirectFrom d d' mv), P c := by
  unfold redirectFrom
  split
  · exact forall_mem_cons.mpr ⟨h _ (by cases mv <;> exact mem_cons_self),
      fun _ hc => mem_singleton.mp hc ▸ hd'⟩
  · exact h

/-- The result uses the cells of the moves and the temporary. -/
theorem doRec_cellsOf (h : doRec fuel r mvs cells = .ok (l, cells'))
    (htemp : P cells.nextMemCell) (hr : ∀ mv ∈ r, ∀ c ∈ cellsOf mv, P c)
    (hmvs : ∀ mv ∈ mvs, ∀ c ∈ cellsOf mv, P c) :
    ∀ mv ∈ l, ∀ c ∈ cellsOf mv, P c := by
  induction fuel generalizing r mvs cells l with
  | zero => cases h
  | succ fuel ih =>
    rcases doRec_cases h with ⟨-, rfl⟩ | h' | ⟨d, s, mvs', l', heq, rfl, h'⟩
    · exact hr
    · exact ih h' htemp (forall_mem_append.mpr ⟨fun mv hmv => hmvs mv (mem_of_mem_filter hmv), hr⟩)
        fun mv hmv => hmvs mv (mem_of_mem_filter hmv)
    · have hl' := ih h' htemp hr fun mv hmv => by
        obtain ⟨mv', hmv', rfl⟩ := mem_map.mp hmv
        exact cellsOf_redirectFrom (hmvs mv' hmv') htemp
      have hd : P d := hmvs (.copy d s) (heq ▸ mem_cons_self) d mem_cons_self
      intro mv hmv
      rcases mem_cons.mp hmv with rfl | hmv
      · intro c hc
        simp only [cellsOf, mem_cons, not_mem_nil, or_false] at hc
        rcases hc with rfl | rfl
        · exact htemp
        · exact hd
      · exact hl' mv hmv

/-- The temporary is not used, or is written first. -/
theorem doRec_unused (h : doRec fuel r mvs cells = .ok (l, cells'))
    (hr : Unused cells.nextMemCell r) (hmvs : Unused cells.nextMemCell mvs) :
    Unused cells.nextMemCell l ∨
      ∃ d l', d ≠ cells.nextMemCell ∧ l = .copy cells.nextMemCell d :: l' := by
  induction fuel generalizing r mvs with
  | zero => cases h
  | succ fuel ih =>
    rcases doRec_cases h with ⟨-, rfl⟩ | h' | ⟨d, s, mvs', l', rfl, rfl, -⟩
    · exact .inl hr
    · exact ih h' (forall_mem_append.mpr ⟨fun mv hmv => hmvs mv (mem_of_mem_filter hmv), hr⟩)
        fun mv hmv => hmvs mv (mem_of_mem_filter hmv)
    · exact .inr ⟨d, l', (hmvs _ mem_cons_self).1, rfl⟩

/-- Moves between cells that are in use do not use the next one. -/
theorem unused_of_lt (h : ∀ mv ∈ mvs, ∀ c ∈ cellsOf mv, c < cells.nextMemCell) :
    Unused cells.nextMemCell mvs := by
  intro mv hmv
  have hlt := h mv hmv
  cases mv with
  | copy d s =>
    have hd := hlt d mem_cons_self
    have hs := hlt s (mem_cons_of_mem d mem_cons_self)
    exact ⟨Nat.ne_of_lt hd, fun heq => Nat.ne_of_lt hs (Int.ofNat_inj.mp heq)⟩
  | set d => exact ⟨Nat.ne_of_lt (hlt d mem_cons_self), by simp [orig]⟩

end Sorting

/-- Moves in a memory that has all their cells -/
theorem foldlM_memoryAction {l : List MemoryAction} (pos : Nat) {mem : List Int}
    (h : ∀ mv ∈ l, ∀ c ∈ cellsOf mv, c < mem.length) :
    ∃ mem', l.foldlM (memoryAction pos) mem = .ok mem' ∧ mem'.length = mem.length ∧
      ∀ c < mem.length, mem'[c]? = some (runMoves pos (fun c => mem.getD c 0) l c) := by
  induction l generalizing mem with
  | nil =>
    refine ⟨mem, rfl, rfl, fun c hc => ?_⟩
    simp [runMoves, run, hc]
  | cons mv l ih =>
    have hmv := h mv mem_cons_self
    -- the memory after the first move, and what it is as a function
    obtain ⟨v, hv, hstep⟩ : ∃ v, (toMove mv).value (pos : Int) (fun c => mem.getD c 0) = v ∧
        memoryAction pos mem mv = .ok (mem.set (dest mv) v) := by
      cases mv with
      | copy d s =>
        have hd : d < mem.length := hmv d mem_cons_self
        have hs : s < mem.length := hmv s (mem_cons_of_mem d mem_cons_self)
        refine ⟨mem[s], by simp [toMove, Move.value, hs], ?_⟩
        simp [memoryAction, Lexing.orElse, Lexing.setCell, hs, hd, dest]
      | set d =>
        have hd : d < mem.length := hmv d mem_cons_self
        exact ⟨pos, rfl, by simp [memoryAction, Lexing.setCell, hd, dest]⟩
    have hfun : (fun c => (mem.set (dest mv) v).getD c 0) =
        Function.update (fun c => mem.getD c 0) (dest mv) v := by
      have hd : dest mv < mem.length := hmv _ (by cases mv <;> exact mem_cons_self)
      funext c
      by_cases hc : c = dest mv
      · subst hc
        simp [hd]
      · rw [Function.update_of_ne hc, List.getD_eq_getElem?_getD, List.getElem?_set_ne (Ne.symm hc),
          List.getD_eq_getElem?_getD]
    have hrest : ∀ mv' ∈ l, ∀ c ∈ cellsOf mv', c < (mem.set (dest mv) v).length := by
      intro mv' hmv' c hc
      rw [length_set]
      exact h mv' (mem_cons_of_mem mv hmv') c hc
    obtain ⟨mem', hrun, hlen, hget⟩ := ih hrest
    rw [length_set] at hlen hget
    refine ⟨mem', by rw [foldlM_cons, hstep]; exact hrun, hlen, fun c hc => ?_⟩
    rw [hget c hc, hfun, ← hv, ← toMove_dest]
    rfl

/-- **The moves that `sort_mvs` returns, done one after the other, are the parallel assignment**,
when all cycles go through the first move whose value comes from a cycle. -/
theorem sortMvs_parallel (cells : Cells) (mvs : List MemoryAction)
    (hnodup : (mvs.map dest).Nodup)
    (hcells : ∀ mv ∈ mvs, ∀ c ∈ cellsOf mv, c < cells.nextMemCell)
    (hcycles : CyclesThroughFirst mvs) (fuel : Nat) (hfuel : mvs.length + 1 < fuel) :
    ∃ l cells', sortMvs fuel mvs cells = .ok (l, cells') ∧
      ∀ (pos : Nat) (mem : List Int), cells.nextMemCell < mem.length →
        ∃ mem', l.foldlM (memoryAction pos) mem = .ok mem' ∧
          (∀ d s, .copy d s ∈ mvs → mem'[d]? = mem[s]?) ∧
          (∀ d, .set d ∈ mvs → mem'[d]? = some (pos : Int)) ∧
          ∀ c, c ∉ mvs.map dest → c ≠ cells.nextMemCell → mem'[c]? = mem[c]? := by
  obtain ⟨l, cells', hrun, hl⟩ :=
    doRec_parallel hfuel hnodup hcycles (unused_of_lt hcells) (r := []) nofun
  refine ⟨l, cells', hrun, fun pos mem hmem => ?_⟩
  have hmoves : ∀ mv ∈ l, ∀ c ∈ cellsOf mv, c < mem.length :=
    doRec_cellsOf (P := (· < mem.length)) hrun hmem nofun
      fun mv hmv c hc => (hcells mv hmv c hc).trans hmem
  obtain ⟨mem', hexec, hlen, hget⟩ := foldlM_memoryAction pos hmoves
  have hnodup' : (dests (mvs.map toMove)).Nodup := by rwa [dests_toMove]
  -- a destination has the value of its move
  have hdest : ∀ mv ∈ mvs, mem'[dest mv]? =
      some ((toMove mv).value (pos : Int) fun c => mem.getD c 0) := by
    intro mv hmv
    have hlt : dest mv < cells.nextMemCell :=
      hcells mv hmv _ (by cases mv <;> exact mem_cons_self)
    rw [hget _ (hlt.trans hmem), hl pos _ _ (Nat.ne_of_lt hlt)]
    have := par_dest (pos : Int) (fun c => mem.getD c 0) hnodup'
      (mem_map_of_mem hmv)
    rw [toMove_dest] at this
    exact congrArg some this
  refine ⟨mem', hexec, fun d s hmv => ?_, fun d hmv => hdest (.set d) hmv, fun c hc hct => ?_⟩
  · have hs : s < mem.length :=
      (hcells _ hmv s (mem_cons_of_mem d mem_cons_self)).trans hmem
    exact (hdest (.copy d s) hmv).trans (by simp [toMove, Move.value, hs])
  · by_cases hlt : c < mem.length
    · rw [hget c hlt, hl pos _ c hct]
      show some (par _ _ (mvs.map toMove) c) = _
      rw [par_of_not_mem (by rwa [dests_toMove])]
      simp [hlt]
    · rw [List.getElem?_eq_none (by omega), List.getElem?_eq_none (by omega)]

/-- Two cells are exchanged. -/
theorem sortMvs_parallel_swap : ∃ l cells',
    sortMvs 4 [.copy 0 1, .copy 1 0] (resetStatePartial 2) = .ok (l, cells') ∧
      ∀ (pos : Nat) (mem : List Int), 2 < mem.length →
        ∃ mem', l.foldlM (memoryAction pos) mem = .ok mem' ∧
          (∀ d s, .copy d s ∈ [MemoryAction.copy 0 1, .copy 1 0] → mem'[d]? = mem[s]?) ∧
          (∀ d, .set d ∈ [MemoryAction.copy 0 1, .copy 1 0] → mem'[d]? = some (pos : Int)) ∧
          ∀ c, c ∉ [0, 1] → c ≠ 2 → mem'[c]? = mem[c]? := by
  refine sortMvs_parallel (resetStatePartial 2) [.copy 0 1, .copy 1 0] (by decide) (by decide) ?_ 4
    (by decide)
  have h01 : Copies ([MemoryAction.copy 0 1, .copy 1 0].map toMove) 0 1 := mem_cons_self
  have h10 : Copies ([MemoryAction.copy 0 1, .copy 1 0].map toMove) 1 0 :=
    mem_cons_of_mem _ mem_cons_self
  intro pre mv post heq hpre hmv b hb
  cases pre with
  | cons m pre =>
    obtain ⟨rfl, -⟩ := List.cons.inj heq
    exact absurd ⟨0, .refl, .head h01 (.single h10)⟩ (hpre _ mem_cons_self)
  | nil =>
    obtain ⟨rfl, -⟩ := List.cons.inj heq
    have hmem : b ∈ [0, 1] := hb.mem_dests
    simp only [mem_cons, not_mem_nil, or_false] at hmem
    rcases hmem with rfl | rfl
    · exact .head h01 (.single h10)
    · exact .single h10

/-- With two cycles, the temporary of the first one is overwritten before it is read: the cell 1
gets the contents of the cell 2 in the place of those of the cell 0. -/
theorem sortMvs_two_cycles :
    (sortMvs 10 [.copy 0 1, .copy 1 0, .copy 2 3, .copy 3 2] (resetStatePartial 4)).map Prod.fst =
      .ok [.copy 4 0, .copy 4 2, .copy 2 3, .copy 3 4, .copy 0 1, .copy 1 4] ∧
    [MemoryAction.copy 4 0, .copy 4 2, .copy 2 3, .copy 3 4, .copy 0 1, .copy 1 4].foldlM
      (memoryAction 0) [10, 11, 12, 13, -1] = .ok [11, 12, 13, 12, 12] :=
  ⟨rfl, rfl⟩

/-- When the first move reads a cycle and is not on it, the recursion does not end. -/
theorem sortMvs_diverges (fuel : Nat) (cells : Cells) :
    sortMvs fuel [.copy 0 1, .copy 1 2, .copy 2 1] cells = .error .outOfFuel := by
  induction fuel generalizing cells with
  | zero => rfl
  | succ fuel ih =>
    rw [sortMvs, doRec_cut fuel rfl rfl]
    exact congrArg (Except.bind · _) (ih { cells with tempPending := true })

end TravLang.Lexgen
