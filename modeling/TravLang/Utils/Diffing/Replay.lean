import TravLang.Utils.Diffing.Basic

/-!
# The patches of `diff` can be replayed

A cell that has been computed is never computed again, so its change and its state fit those of
the cell it was computed from (`Justified`). Walking back from a cell thus gives a patch that leads
from the initial state to the state of the cell. In a matrix that no state wants to extend, some
cell is at the end of both its sequences (`exists_final`).
-/

namespace TravLang.Diffing

open List

variable {L R E D S σ β : Type} {c l i i' j j' a b : Nat} {s : σ} {f : σ → Nat → Nat → σ}
  {d : Change L R E D} {X : FullCore L R E D S} {st st0 : FullState L R S}
  {m tbl m' : Matrix L R E D S} {p : Int × β} {w : Int}

/-! ## Replaying -/

def Change.left? : Change L R E D → Option L
  | .delete x => some x
  | .insert _ => none
  | .keep x _ _ => some x
  | .change x _ _ => some x

def Change.right? : Change L R E D → Option R
  | .delete _ => none
  | .insert y => some y
  | .keep _ y _ => some y
  | .change _ y _ => some y

def lefts (patch : List (Change L R E D)) : List L := patch.filterMap Change.left?

def rights (patch : List (Change L R E D)) : List R := patch.filterMap Change.right?

def replay (X : FullCore L R E D S) (patch : List (Change L R E D)) (st : FullState L R S) :
    FullState L R S :=
  patch.foldl (fun st d => X.update d st) st

/-- A `Keep` or a `Change` carries the result of the test in the state `st`. -/
def TestOk (X : FullCore L R E D S) (st : FullState L R S) : Change L R E D → Prop
  | .keep x y eq => X.test st.state x y = .ok eq
  | .change x y diff => X.test st.state x y = .error diff
  | _ => True

/-- Each step of the patch carries the result of the test in the state reached before it. -/
def TestsOk (X : FullCore L R E D S) : List (Change L R E D) → FullState L R S → Prop
  | [], _ => True
  | d :: patch, st => TestOk X st d ∧ TestsOk X patch (X.update d st)

/-- The patch leads from `st0` to a state that has exactly the elements of the patch. -/
structure Replayable (X : FullCore L R E D S) (st0 : FullState L R S)
    (patch : List (Change L R E D)) : Prop where
  line : (replay X patch st0).line = lefts patch
  column : (replay X patch st0).column = rights patch
  tests : TestsOk X patch st0

theorem replay_concat (X : FullCore L R E D S) (patch : List (Change L R E D))
    (d : Change L R E D) (st : FullState L R S) :
    replay X (patch ++ [d]) st = X.update d (replay X patch st) := by
  simp [replay]

theorem testsOk_concat {X : FullCore L R E D S} {d : Change L R E D} :
    ∀ {patch : List (Change L R E D)} {st : FullState L R S}, TestsOk X patch st →
      TestOk X (replay X patch st) d → TestsOk X (patch ++ [d]) st
  | [], _, _, hd => ⟨hd, trivial⟩
  | _ :: _, _, h, hd => ⟨h.1, testsOk_concat h.2 hd⟩

/-! ## Loops over cells -/

/-- The rule for the two nested loops: `I i j` holds before the cell `(i, j)`. -/
theorem forCells_rule (I : Nat → Nat → σ → Prop)
    (hcell : ∀ i j s, i ≤ l → j ≤ c → I i j s → I i (j + 1) (f s i j))
    (hrow : ∀ i s, i ≤ l → I i (c + 1) s → I (i + 1) 0 s) (hstart : I 0 0 s) :
    I (l + 1) 0 (forCells l c f s) := by
  have hinner : ∀ i, i ≤ l → ∀ k, k ≤ c + 1 → ∀ s, I i 0 s →
      I i k ((List.range k).foldl (fun s j => f s i j) s) := by
    intro i hi k
    induction k with
    | zero => exact fun _ s hs => hs
    | succ k ih =>
      intro hk s hs
      rw [range_succ, foldl_append, foldl_cons, foldl_nil]
      exact hcell i k _ hi (by omega) (ih (by omega) s hs)
  have houter : ∀ k, k ≤ l + 1 → I k 0 ((List.range k).foldl
      (fun s i => (List.range (c + 1)).foldl (fun s j => f s i j) s) s) := by
    intro k
    induction k with
    | zero => exact fun _ => hstart
    | succ k ih =>
      intro hk
      rw [range_succ (n := k), foldl_append, foldl_cons, foldl_nil]
      exact hrow k _ (by omega) (hinner k (by omega) (c + 1) (Nat.le_refl _) _ (ih (by omega)))
  exact houter (l + 1) (Nat.le_refl _)

/-- The cell `(a, b)` comes before `(i, j)`. -/
def Before (i j a b : Nat) : Prop := a < i ∨ (a = i ∧ b < j)

/-- The rule for a fact `Q` about each cell that the later cells do not undo. -/
theorem forCells_each (I : σ → Prop) (Q : σ → Nat → Nat → Prop) (hstart : I s)
    (hcell : ∀ i j s, i ≤ l → j ≤ c → I s → (∀ a b, Before i j a b → b ≤ c → Q s a b) →
      I (f s i j) ∧ Q (f s i j) i j ∧ ∀ a b, Before i j a b → Q s a b → Q (f s i j) a b) :
    I (forCells l c f s) ∧ ∀ i j, i ≤ l → j ≤ c → Q (forCells l c f s) i j := by
  have hall := forCells_rule (f := f) (fun i j s => I s ∧ ∀ a b, Before i j a b → b ≤ c → Q s a b)
    (l := l) (c := c) (s := s) ?cell ?row ⟨hstart, fun a b hab => by
      unfold Before at hab
      omega⟩
  case cell =>
    rintro i j s hi hj ⟨hI, hQ⟩
    obtain ⟨hI', hnew, hold⟩ := hcell i j s hi hj hI hQ
    refine ⟨hI', fun a b hab hb => ?_⟩
    by_cases heq : a = i ∧ b = j
    · rwa [heq.1, heq.2]
    · have hab' : Before i j a b := by
        unfold Before at *
        omega
      exact hold a b hab' (hQ a b hab' hb)
  case row =>
    rintro i s - ⟨hI, hQ⟩
    refine ⟨hI, fun a b hab hb => hQ a b ?_ hb⟩
    unfold Before at *
    omega
  exact ⟨hall.1, fun i j hi hj => hall.2 i j (.inl (Nat.lt_succ_of_le hi)) hj⟩

/-! ## Moves -/

/-- The change `d` leads from the cell `(i, j)`, with state `st`, to another cell. -/
inductive Move (X : FullCore L R E D S) (st : FullState L R S) (i j : Nat) :
    Change L R E D → Nat → Nat → Prop
  | delete {x : L} : st.line[i]? = some x → Move X st i j (.delete x) (i + 1) j
  | insert {y : R} : st.column[j]? = some y → Move X st i j (.insert y) i (j + 1)
  | keep {x : L} {y : R} {eq : E} : st.line[i]? = some x → st.column[j]? = some y →
    X.test st.state x y = .ok eq → Move X st i j (.keep x y eq) (i + 1) (j + 1)
  | change {x : L} {y : R} {diff : D} : st.line[i]? = some x → st.column[j]? = some y →
    X.test st.state x y = .error diff → Move X st i j (.change x y diff) (i + 1) (j + 1)

theorem Move.next_eq (h : Move X st i j d i' j') : next d i' j' = .ok (i, j) := by
  cases h with
  | delete hx => cases j <;> rfl
  | insert hy => cases i <;> rfl
  | keep hx hy ht => rfl
  | change hx hy ht => rfl

theorem Move.before (h : Move X st i j d i' j') : Before i' j' i j ∧ i ≤ i' ∧ j ≤ j' := by
  unfold Before
  cases h <;> omega

theorem Move.testOk (h : Move X st i j d i' j') : TestOk X st d := by
  cases h with
  | delete hx => trivial
  | insert hy => trivial
  | keep hx hy ht => exact ht
  | change hx hy ht => exact ht

/-- Updates only append to the sequences. -/
structure Appends (X : FullCore L R E D S) : Prop where
  line : ∀ d st, st.line <+: (X.update d st).line
  column : ∀ d st, st.column <+: (X.update d st).column

theorem take_of_isPrefix {a b : List β} (h : a <+: b) (hi : i ≤ a.length) :
    b.take i = a.take i := by
  obtain ⟨t, rfl⟩ := h
  rw [take_append_of_le_length hi]

theorem take_succ_of_isPrefix {a b : List β} (h : a <+: b) {x : β} (hx : a[i]? = some x) :
    i + 1 ≤ b.length ∧ b.take (i + 1) = a.take i ++ [x] := by
  obtain ⟨hi, -⟩ := List.getElem?_eq_some_iff.mp hx
  refine ⟨Nat.le_trans hi h.length_le, ?_⟩
  rw [take_of_isPrefix h hi, take_add_one, hx]
  rfl

/-- What a patch that leads to a cell has to do with the state of the cell. -/
structure LeadsTo (X : FullCore L R E D S) (st0 : FullState L R S) (i j : Nat)
    (st : FullState L R S) (patch : List (Change L R E D)) : Prop where
  replay_eq : replay X patch st0 = st
  line_le : i ≤ st.line.length
  column_le : j ≤ st.column.length
  lefts_eq : lefts patch = st.line.take i
  rights_eq : rights patch = st.column.take j
  tests : TestsOk X patch st0

theorem LeadsTo.move (hX : Appends X) {patch : List (Change L R E D)}
    (h : LeadsTo X st0 i j st patch) (hm : Move X st i j d i' j') :
    LeadsTo X st0 i' j' (X.update d st) (patch ++ [d]) := by
  have hline := hX.line d st
  have hcolumn := hX.column d st
  have hreplay : replay X (patch ++ [d]) st0 = X.update d st := by
    rw [replay_concat, h.replay_eq]
  have htests : TestsOk X (patch ++ [d]) st0 := testsOk_concat h.tests (by
    rw [h.replay_eq]
    exact hm.testOk)
  -- an element of the line is consumed, or the part before it stays as it was
  have hl : ∀ {x}, st.line[i]? = some x → i + 1 ≤ (X.update d st).line.length ∧
      (X.update d st).line.take (i + 1) = lefts patch ++ [x] := fun hx => by
    rw [h.lefts_eq]
    exact take_succ_of_isPrefix hline hx
  have hr : ∀ {y}, st.column[j]? = some y → j + 1 ≤ (X.update d st).column.length ∧
      (X.update d st).column.take (j + 1) = rights patch ++ [y] := fun hy => by
    rw [h.rights_eq]
    exact take_succ_of_isPrefix hcolumn hy
  have hl0 : lefts patch = (X.update d st).line.take i := by
    rw [h.lefts_eq, take_of_isPrefix hline h.line_le]
  have hr0 : rights patch = (X.update d st).column.take j := by
    rw [h.rights_eq, take_of_isPrefix hcolumn h.column_le]
  cases hm with
  | delete hx =>
    refine ⟨hreplay, (hl hx).1, Nat.le_trans h.column_le hcolumn.length_le, ?_, ?_, htests⟩
    · simp [(hl hx).2, lefts, Change.left?]
    · simp [← hr0, rights, Change.right?]
  | insert hy =>
    refine ⟨hreplay, Nat.le_trans h.line_le hline.length_le, (hr hy).1, ?_, ?_, htests⟩
    · simp [← hl0, lefts, Change.left?]
    · simp [(hr hy).2, rights, Change.right?]
  | keep hx hy ht | change hx hy ht =>
    refine ⟨hreplay, (hl hx).1, (hr hy).1, ?_, ?_, htests⟩
    · simp [(hl hx).2, lefts, Change.left?]
    · simp [(hr hy).2, rights, Change.right?]

/-! ## The matrix -/

/-- Every computed cell was computed from a cell of the matrix. -/
structure Justified (X : FullCore L R E D S) (st0 : FullState L R S) (m : Matrix L R E D S) :
    Prop where
  origin : m.states 0 0 = some st0
  cell : ∀ i j st, m.states i j = some st → (i = 0 ∧ j = 0) ∨
    ∃ i' j' st' d, m.states i' j' = some st' ∧ Move X st' i' j' d i j ∧
      m.diff i j = some d ∧ st = X.update d st'
  diff_none : ∀ i j, m.states i j = none → m.diff i j = none

theorem walk_step (hdiff : m.diff i j = some d) (hnext : next d i j = .ok (i', j'))
    (acc : List (Change L R E D)) : walk m acc i j = walk m (d :: acc) i' j' := by
  have hlt := next_lt hnext
  rw [walk, if_neg (by omega), hdiff]
  dsimp only
  split
  · next e he =>
    rw [hnext] at he
    cases he
  · next a b hab =>
    rw [hnext] at hab
    cases hab
    rfl

/-- **Walking back from a computed cell gives a patch that leads to it.** -/
theorem Justified.walk (hX : Appends X) (hm : Justified X st0 m) : ∀ (k i j : Nat), i + j = k →
    ∀ st, m.states i j = some st →
    ∃ patch, (∀ acc, walk m acc i j = .ok (patch ++ acc)) ∧ LeadsTo X st0 i j st patch := by
  intro k
  induction k using Nat.strongRecOn with
  | ind k ih =>
    intro i j hk st hst
    by_cases horigin : i = 0 ∧ j = 0
    · obtain ⟨rfl, rfl⟩ := horigin
      rw [hm.origin] at hst
      cases hst
      refine ⟨[], fun acc => by rw [Diffing.walk]; simp, ?_⟩
      exact ⟨rfl, Nat.zero_le _, Nat.zero_le _, rfl, rfl, trivial⟩
    · rcases hm.cell i j st hst with h | ⟨i', j', st', d, hst', hmove, hdiff, rfl⟩
      · exact absurd h horigin
      · have hnext := hmove.next_eq
        have hlt := next_lt hnext
        obtain ⟨patch, hwalk, hleads⟩ := ih (i' + j') (by omega) i' j' rfl st' hst'
        refine ⟨patch ++ [d], fun acc => ?_, hleads.move hX hmove⟩
        rw [walk_step hdiff hnext, hwalk, append_assoc, singleton_append]

/-! ## Computing a cell -/

theorem compareProposition_cases (curr prop : Option (Int × β)) :
    (compareProposition curr prop = curr ∨ compareProposition curr prop = prop) ∧
    ((compareProposition curr prop).isSome = (curr.isSome || prop.isSome)) := by
  unfold compareProposition
  split
  · simp
  · simp
  · split <;> simp

theorem foldl_compareProposition (l : List (Option (Int × β))) :
    ∀ curr, (l.foldl compareProposition curr = curr ∨ l.foldl compareProposition curr ∈ l) ∧
      ((l.foldl compareProposition curr).isSome = (curr.isSome || l.any Option.isSome)) := by
  induction l with
  | nil => simp
  | cons prop l ih =>
    intro curr
    obtain ⟨hcases, hsome⟩ := compareProposition_cases curr prop
    obtain ⟨ihcases, ihsome⟩ := ih (compareProposition curr prop)
    rw [foldl_cons]
    refine ⟨?_, by rw [ihsome, hsome, any_cons, Bool.or_assoc]⟩
    rcases ihcases with h | h
    · rcases hcases with h' | h'
      · exact Or.inl (h.trans h')
      · exact Or.inr (mem_cons.mpr (Or.inl (h.trans h')))
    · exact Or.inr (mem_cons_of_mem _ h)

theorem selectBestProposition_mem {l : List (Option (Int × β))}
    (h : selectBestProposition l = some p) : some p ∈ l := by
  rcases (foldl_compareProposition l none).1 with hl | hl
  · rw [selectBestProposition, hl] at h
    cases h
  · rwa [← selectBestProposition, h] at hl

theorem selectBestProposition_isSome {l : List (Option (Int × β))} (h : some p ∈ l) :
    ∃ q, selectBestProposition l = some q := by
  rw [← Option.isSome_iff_exists, selectBestProposition, (foldl_compareProposition l none).2]
  exact any_eq_true.mpr ⟨some p, h, rfl⟩

theorem computeProposition_eq_some {diff : Option (Change L R E D)} :
    computeProposition X tbl i j diff = some (w, (d, st)) ↔
      diff = some d ∧ tbl.states i j = some st ∧ w = addInt (X.weight d) (tbl.weight i j) := by
  unfold computeProposition
  cases diff with
  | none => simp
  | some d' =>
    cases tbl.states i j with
    | none => simp
    | some st' =>
      simp only [Option.bind_eq_bind, Option.bind_some, Option.pure_def, Option.some.injEq,
        Prod.mk.injEq]
      constructor
      · rintro ⟨rfl, rfl, rfl⟩
        exact ⟨rfl, rfl, rfl⟩
      · rintro ⟨rfl, rfl, rfl⟩
        exact ⟨rfl, rfl, rfl⟩

theorem diagonal_eq_some (hst : tbl.states i j = some st) :
    diagonal X tbl i j = some d ↔ Move X st i j d (i + 1) (j + 1) := by
  unfold diagonal
  simp only [Matrix.line, Matrix.column, hst, Option.bind_eq_bind, Option.bind_some]
  constructor
  · intro h
    obtain ⟨x, hx, h⟩ := Option.bind_eq_some_iff.mp h
    obtain ⟨y, hy, h⟩ := Option.bind_eq_some_iff.mp h
    split at h
    · next eq ht =>
      cases h
      exact .keep hx hy ht
    · next diff ht =>
      cases h
      exact .change hx hy ht
  · intro h
    cases h with
    | keep hx hy ht => simp [hx, hy, ht]
    | change hx hy ht => simp [hx, hy, ht]

/-- The propositions for an inner cell are the moves to it. -/
theorem mem_propositions :
    some (w, (d, st)) ∈ [computeProposition X m i j (diagonal X m i j),
        computeProposition X m i (j + 1) ((m.line i (j + 1)).map .delete),
        computeProposition X m (i + 1) j ((m.column (i + 1) j).map .insert)] ↔
      ∃ i' j', m.states i' j' = some st ∧ Move X st i' j' d (i + 1) (j + 1) ∧
        w = addInt (X.weight d) (m.weight i' j') := by
  simp only [mem_cons, not_mem_nil, or_false, eq_comm (a := some (w, (d, st))),
    computeProposition_eq_some]
  constructor
  · rintro (⟨hd, hst, hw⟩ | ⟨hd, hst, hw⟩ | ⟨hd, hst, hw⟩)
    · exact ⟨i, j, hst, (diagonal_eq_some hst).mp hd, hw⟩
    · obtain ⟨x, hx, rfl⟩ := Option.map_eq_some_iff.mp hd
      rw [Matrix.line, hst] at hx
      exact ⟨i, j + 1, hst, .delete hx, hw⟩
    · obtain ⟨y, hy, rfl⟩ := Option.map_eq_some_iff.mp hd
      rw [Matrix.column, hst] at hy
      exact ⟨i + 1, j, hst, .insert hy, hw⟩
  · rintro ⟨i', j', hst, hmove, hw⟩
    cases hmove with
    | delete hx => exact .inr (.inl ⟨by simp [Matrix.line, hst, hx], hst, hw⟩)
    | insert hy => exact .inr (.inr ⟨by simp [Matrix.column, hst, hy], hst, hw⟩)
    | keep hx hy ht => exact .inl ⟨(diagonal_eq_some hst).mpr (.keep hx hy ht), hst, hw⟩
    | change hx hy ht => exact .inl ⟨(diagonal_eq_some hst).mpr (.change hx hy ht), hst, hw⟩

/-- The matrix `m'` is `m`, or `m` with one more cell, computed from a cell of `m`. -/
def Computed (X : FullCore L R E D S) (m : Matrix L R E D S) (i j : Nat)
    (m' : Matrix L R E D S) : Prop :=
  m' = m ∨ ∃ i' j' st d w, m.states i' j' = some st ∧ Move X st i' j' d i j ∧
    m' = m.set i j (some d) w (X.update d st)

section

variable (X m)

theorem computeColumn0_computed (i : Nat) :
    Computed X m (i + 1) 0 (computeColumn0 X m (i + 1)) := by
  unfold computeColumn0
  rw [Nat.add_sub_cancel]
  split
  · exact Or.inl rfl
  · next st hst =>
    split
    · exact Or.inl rfl
    · next x hx =>
      rw [Matrix.line, hst] at hx
      exact Or.inr ⟨i, 0, st, _, _, hst, .delete hx, rfl⟩

theorem computeLine0_computed (j : Nat) : Computed X m 0 (j + 1) (computeLine0 X m (j + 1)) := by
  unfold computeLine0
  rw [Nat.add_sub_cancel]
  split
  · exact Or.inl rfl
  · next st hst =>
    split
    · exact Or.inl rfl
    · next y hy =>
      rw [Matrix.column, hst] at hy
      exact Or.inr ⟨0, j, st, _, _, hst, .insert hy, rfl⟩

theorem computeInnerCell_computed (i j : Nat) :
    Computed X m (i + 1) (j + 1) (computeInnerCell X m (i + 1) (j + 1)) := by
  unfold computeInnerCell
  simp only [Nat.add_sub_cancel]
  split
  · exact Or.inl rfl
  · next w d st hbest =>
    obtain ⟨i', j', hst, hmove, -⟩ := mem_propositions.mp (selectBestProposition_mem hbest)
    exact Or.inr ⟨i', j', st, d, w, hst, hmove, rfl⟩

/-- **What computing a cell can do.** -/
theorem computeCell_computed (i j : Nat) :
    Computed X m i j (computeCell X m i j) ∧
      ((m.diff i j).isSome = true → computeCell X m i j = m) := by
  unfold computeCell
  split
  · exact ⟨Or.inl rfl, fun _ => rfl⟩
  · next hdiff =>
    refine ⟨?_, fun h => absurd h hdiff⟩
    match i, j with
    | 0, 0 => exact Or.inl rfl
    | 0, j + 1 => exact computeLine0_computed X m j
    | i + 1, 0 => exact computeColumn0_computed X m i
    | i + 1, j + 1 => exact computeInnerCell_computed X m i j

end

theorem set_states_self (m : Matrix L R E D S) (i j : Nat) (d : Option (Change L R E D))
    (w : Int) (st : FullState L R S) : (m.set i j d w st).states i j = some st := by
  simp [Matrix.set, Matrix.assign]

theorem foldl_compareProposition_le : ∀ (l : List (Option (Int × β)))
    (curr : Option (Int × β)), l.foldl compareProposition curr = some p →
    ∀ q, curr = some q ∨ some q ∈ l → p.1 ≤ q.1
  | [], curr, h, q, hq => by
    obtain rfl | hq := hq
    · cases h
      exact Int.le_refl _
    · cases hq
  | prop :: l, curr, h, q, hq => by
    have hleast : ∀ q, curr = some q ∨ prop = some q →
        ∃ r, compareProposition curr prop = some r ∧ r.1 ≤ q.1 := by
      rintro q (rfl | rfl)
      · cases prop with
        | none => exact ⟨q, rfl, Int.le_refl _⟩
        | some r =>
          refine ⟨_, rfl, ?_⟩
          split <;> omega
      · cases curr with
        | none => exact ⟨q, rfl, Int.le_refl _⟩
        | some r =>
          refine ⟨_, rfl, ?_⟩
          split <;> omega
    have ih := foldl_compareProposition_le l _ h
    rcases hq with hq | hq
    · obtain ⟨r, hr, hle⟩ := hleast q (.inl hq)
      exact Int.le_trans (ih r (.inl hr)) hle
    · rcases mem_cons.mp hq with hq | hq
      · obtain ⟨r, hr, hle⟩ := hleast q (.inr hq.symm)
        exact Int.le_trans (ih r (.inl hr)) hle
      · exact ih q (.inr hq)

/-- **A cell that can be reached is computed from a cell that gives it the least weight.** -/
theorem computeCell_least (hdiff : m.diff i j = none) {s : FullState L R S} {e : Change L R E D}
    (hs : m.states a b = some s) (he : Move X s a b e i j) :
    ∃ i' j' st d, m.states i' j' = some st ∧ Move X st i' j' d i j ∧
      computeCell X m i j =
        m.set i j (some d) (addInt (X.weight d) (m.weight i' j')) (X.update d st) ∧
      ∀ a b s e, m.states a b = some s → Move X s a b e i j →
        addInt (X.weight d) (m.weight i' j') ≤ addInt (X.weight e) (m.weight a b) := by
  have hnd : ¬ (m.diff i j).isSome = true := by simp [hdiff]
  unfold computeCell
  rw [if_neg hnd]
  cases i with
  | zero =>
    cases he with
    | insert hy =>
      refine ⟨0, b, s, _, hs, .insert hy, by simp [computeLine0, hs, Matrix.column, hy], ?_⟩
      rintro a' b' s' e' hs' (_ | hy')
      rw [hs] at hs'
      cases hs'
      rw [hy] at hy'
      cases hy'
      exact Int.le_refl _
  | succ i =>
    cases j with
    | zero =>
      cases he with
      | delete hx =>
        refine ⟨a, 0, s, _, hs, .delete hx, by simp [computeColumn0, hs, Matrix.line, hx], ?_⟩
        rintro a' b' s' e' hs' (hx' | _)
        rw [hs] at hs'
        cases hs'
        rw [hx] at hx'
        cases hx'
        exact Int.le_refl _
    | succ j =>
      have hmem := fun {a b s e} (hs : m.states a b = some s)
        (he : Move X s a b e (i + 1) (j + 1)) => mem_propositions.mpr ⟨a, b, hs, he, rfl⟩
      obtain ⟨⟨w, d, st⟩, hbest⟩ := selectBestProposition_isSome (hmem hs he)
      obtain ⟨i', j', hst, hd, rfl⟩ := mem_propositions.mp (selectBestProposition_mem hbest)
      refine ⟨i', j', st, d, hst, hd, by simp only [computeInnerCell, Nat.add_sub_cancel, hbest],
        fun a b s e hs he => foldl_compareProposition_le _ _ hbest _ (.inr (hmem hs he))⟩

/-! ## Filling the matrix -/

/-- A computed cell keeps its state, and all other cells but `(i, j)` stay as they are. -/
theorem Computed.states (h : Computed X m i j m') (hab : ¬ (a = i ∧ b = j)) :
    m'.states a b = m.states a b ∧ m'.diff a b = m.diff a b := by
  rcases h with rfl | ⟨i', j', st, d, w, -, -, rfl⟩
  · exact ⟨rfl, rfl⟩
  · simp [Matrix.set, Matrix.assign, hab]

theorem Justified.origin_of_diff_none (hm : Justified X st0 m) (hst : m.states i j = some st)
    (hdiff : m.diff i j = none) : i = 0 ∧ j = 0 := by
  rcases hm.cell i j st hst with h | ⟨_, _, _, d, -, -, hd, -⟩
  · exact h
  · rw [hdiff] at hd
    cases hd

/-- Computing a cell that has no change yet keeps the other cells justified. -/
theorem Justified.computed (hm : Justified X st0 m) (h : Computed X m i j m')
    (hdiff : (m.diff i j).isSome = true → m' = m) :
    Justified X st0 m' := by
  by_cases hsome : (m.diff i j).isSome = true
  · rw [hdiff hsome]
    exact hm
  · have hnone : m.diff i j = none := by simpa using hsome
    have hother := fun a b (hab : ¬ (a = i ∧ b = j)) => h.states hab
    rcases h with rfl | ⟨i', j', st, d, w, hst, hmove, rfl⟩
    · exact hm
    · have hbefore := hmove.before.1
      have hne : ¬ (i' = i ∧ j' = j) := by
        unfold Before at hbefore
        omega
      have horigin : ¬ (0 = i ∧ 0 = j) := by
        unfold Before at hbefore
        omega
      -- the cell had no state, so no cell was computed from it
      have hfree : m.states i j = none := by
        cases hs : m.states i j with
        | none => rfl
        | some s =>
          have := hm.origin_of_diff_none hs hnone
          omega
      refine ⟨?_, ?_, ?_⟩
      · rw [(hother 0 0 horigin).1]
        exact hm.origin
      · intro a b s hs
        by_cases hab : a = i ∧ b = j
        · obtain ⟨rfl, rfl⟩ := hab
          rw [set_states_self] at hs
          cases hs
          refine Or.inr ⟨i', j', st, d, ?_, hmove, ?_, rfl⟩
          · rw [(hother i' j' hne).1, hst]
          · simp [Matrix.set, Matrix.assign]
        · rw [(hother a b hab).1] at hs
          rcases hm.cell a b s hs with h0 | ⟨a', b', s', d', hs', hmove', hd', rfl⟩
          · exact Or.inl h0
          · refine Or.inr ⟨a', b', s', d', ?_, hmove', ?_, rfl⟩
            · rw [(hother a' b' ?_).1, hs']
              rintro ⟨rfl, rfl⟩
              rw [hfree] at hs'
              cases hs'
            · rw [(hother a b hab).2, hd']
      · intro a b hs
        by_cases hab : a = i ∧ b = j
        · obtain ⟨rfl, rfl⟩ := hab
          rw [set_states_self] at hs
          cases hs
        · rw [(hother a b hab).1] at hs
          rw [(hother a b hab).2]
          exact hm.diff_none a b hs

/-- The cells below and to the right of `(i, j)` are computed if they can be. -/
def Explored (m : Matrix L R E D S) (i j : Nat) : Prop :=
  (∀ k st, i = k + 1 → m.states k j = some st → k < st.line.length →
    (m.states i j).isSome = true) ∧
  ∀ k st, j = k + 1 → m.states i k = some st → k < st.column.length →
    (m.states i j).isSome = true

/-- The matrix is justified, has no cell outside its shape, and all in it is explored. -/
structure Filled (X : FullCore L R E D S) (st0 : FullState L R S) (m : Matrix L R E D S) :
    Prop where
  justified : Justified X st0 m
  explored : ∀ i j, i ≤ m.lines → j ≤ m.columns → Explored m i j
  inside : ∀ i j st, m.states i j = some st → i ≤ m.lines ∧ j ≤ m.columns

theorem explored_computeCell (hm : Justified X st0 m) (i j : Nat) :
    Explored (computeCell X m i j) i j := by
  obtain ⟨hc, hsame⟩ := computeCell_computed X m i j
  -- a cell with a change has a state
  have hdone : (m.diff i j).isSome = true → (m.states i j).isSome = true := by
    intro hd
    cases hs : m.states i j with
    | none =>
      rw [hm.diff_none i j hs] at hd
      cases hd
    | some s => rfl
  have hreach : ∀ {a b : Nat} {st : FullState L R S} {d : Change L R E D},
      m.states a b = some st → Move X st a b d i j →
      ((computeCell X m i j).states i j).isSome = true := by
    intro a b st d hst hmove
    by_cases hd : (m.diff i j).isSome = true
    · rw [hsame hd]
      exact hdone hd
    · obtain ⟨_, _, _, _, -, -, hcompute, -⟩ := computeCell_least (by simpa using hd) hst hmove
      rw [hcompute, set_states_self]
      rfl
  constructor
  · rintro k st rfl hst hlt
    rw [(hc.states (by omega)).1] at hst
    exact hreach hst (.delete (List.getElem?_eq_getElem hlt))
  · rintro k st rfl hst hlt
    rw [(hc.states (by omega)).1] at hst
    exact hreach hst (.insert (List.getElem?_eq_getElem hlt))

theorem Explored.of_states (h : Explored m a b)
    (hsame : ∀ a' b', a' ≤ a → b' ≤ b → m'.states a' b' = m.states a' b') : Explored m' a b := by
  constructor
  · rintro k st rfl hst hlt
    rw [hsame k b (by omega) (by omega)] at hst
    rw [hsame (k + 1) b (by omega) (by omega)]
    exact h.1 k st rfl hst hlt
  · rintro k st rfl hst hlt
    rw [hsame a k (by omega) (by omega)] at hst
    rw [hsame a (k + 1) (by omega) (by omega)]
    exact h.2 k st rfl hst hlt

theorem shape_forCells (X : FullCore L R E D S) (l c : Nat) (m : Matrix L R E D S) :
    (forCells l c (computeCell X) m).lines = m.lines ∧
    (forCells l c (computeCell X) m).columns = m.columns := by
  refine forCells_rule (fun _ _ (m' : Matrix L R E D S) => m'.lines = m.lines ∧
    m'.columns = m.columns) (fun i j m' _ _ h => ?_) (fun _ _ _ h => h) ⟨rfl, rfl⟩
  rcases (computeCell_computed X m' i j).1 with hc | ⟨_, _, _, _, _, -, -, hc⟩ <;> rw [hc] <;>
    exact h

/-- **One pass over the matrix explores it.** -/
theorem filled_forCells (hm : Justified X st0 m)
    (hin : ∀ i j st, m.states i j = some st → i ≤ m.lines ∧ j ≤ m.columns) :
    Filled X st0 (forCells m.lines m.columns (computeCell X) m) := by
  have hall := forCells_each (f := computeCell X) (l := m.lines) (c := m.columns)
    (fun m' : Matrix L R E D S => Justified X st0 m' ∧
      ∀ a b st, m'.states a b = some st → a ≤ m.lines ∧ b ≤ m.columns)
    Explored ⟨hm, hin⟩ ?cell
  case cell =>
    rintro i j m' hi hj ⟨hj', hin'⟩ -
    obtain ⟨hc, hsame⟩ := computeCell_computed X m' i j
    refine ⟨⟨hj'.computed hc hsame, fun a b st hst => ?_⟩, explored_computeCell hj' i j,
      fun a b hab hex => hex.of_states fun a' b' ha' hb' => (hc.states ?_).1⟩
    · by_cases hab : a = i ∧ b = j
      · omega
      · rw [(hc.states hab).1] at hst
        exact hin' a b st hst
    · -- the cells that matter for `(a, b)` come before `(i, j)`
      unfold Before at hab
      omega
  obtain ⟨hl, hc⟩ := shape_forCells X m.lines m.columns m
  exact ⟨hall.1.1, by simpa only [hl, hc] using hall.2, by simpa only [hl, hc] using hall.1.2⟩

/-! ## The shape -/

/-- No state asks for more lines or columns than the matrix has. -/
def Stable (m : Matrix L R E D S) : Prop :=
  ∀ i j st, m.states i j = some st → st.line.length ≤ m.lines ∧ st.column.length ≤ m.columns

theorem realShape_ge (m : Matrix L R E D S) :
    (m.lines ≤ m.realShape.l ∧ m.columns ≤ m.realShape.c) ∧
    ∀ i j st, i ≤ m.lines → j ≤ m.columns → m.states i j = some st →
      st.line.length ≤ m.realShape.l ∧ st.column.length ≤ m.realShape.c := by
  suffices h : (m.lines ≤ m.realShape.l ∧ m.columns ≤ m.realShape.c) ∧
      ∀ i j, i ≤ m.lines → j ≤ m.columns → ∀ st, m.states i j = some st →
        st.line.length ≤ m.realShape.l ∧ st.column.length ≤ m.realShape.c from
    ⟨h.1, fun i j st hi hj => h.2 i j hi hj st⟩
  unfold Matrix.realShape
  refine forCells_each (fun shape : Shape => m.lines ≤ shape.l ∧ m.columns ≤ shape.c)
    (fun shape a b => ∀ st, m.states a b = some st →
      st.line.length ≤ shape.l ∧ st.column.length ≤ shape.c) ⟨Nat.le_refl _, Nat.le_refl _⟩
    fun i j shape _ _ hshape _ => ?_
  unfold Matrix.shapeAt
  cases hs : m.states i j with
  | none => exact ⟨hshape, by simp, fun a b _ h => h⟩
  | some here =>
    dsimp only [Option.map_some]
    refine ⟨by split <;> split <;> omega, ?_, fun a b _ h st hst => ?_⟩
    · rintro st ⟨⟩
      split <;> split <;> omega
    · have := h st hst
      split <;> split <;> omega

theorem realShape_of_stable (h : Stable m) :
    m.realShape = { l := m.lines, c := m.columns } := by
  refine forCells_rule (fun _ _ (shape : Shape) => shape = { l := m.lines, c := m.columns })
    ?_ ?_ rfl
  · rintro i j shape - - rfl
    unfold Matrix.shapeAt
    cases hs : m.states i j with
    | none => rfl
    | some st =>
      have := h i j st hs
      simp only [Option.map_some, Shape.mk.injEq]
      constructor
      · exact if_neg (by omega)
      · exact if_neg (by omega)
  · exact fun _ _ _ h => h

/-! ## The final matrix -/

theorem reshape_states (hin : ∀ i j st, m.states i j = some st → i ≤ m.lines ∧ j ≤ m.columns)
    (shape : Shape) (i j : Nat) : (m.reshape shape).states i j = m.states i j := by
  unfold Matrix.reshape
  dsimp only
  split
  · rfl
  · next hout =>
    cases hs : m.states i j with
    | none => rfl
    | some st => exact absurd (hin i j st hs) hout

theorem Filled.reshape
    (h : Filled X st0 m) (shape : Shape) : Justified X st0 (m.reshape shape) := by
  have hstates := reshape_states h.inside shape
  have hdiff : ∀ i j, (m.reshape shape).diff i j = m.diff i j := by
    intro i j
    unfold Matrix.reshape
    dsimp only
    split
    · rfl
    · next hout =>
      cases hs : m.states i j with
      | none => rw [h.justified.diff_none i j hs]
      | some st => exact absurd (h.inside i j st hs) hout
  obtain ⟨horigin, hcell, hnone⟩ := h.justified
  constructor <;> simpa only [hstates, hdiff]

/-- The matrix after one round of `loop`. -/
theorem Filled.round (h : Filled X st0 m) : Filled X st0
      (forCells m.realShape.l m.realShape.c (computeCell X) (m.reshape m.realShape)) := by
  refine filled_forCells (m := m.reshape m.realShape) (h.reshape m.realShape) ?_
  intro i j st hst
  rw [reshape_states h.inside] at hst
  have hin := h.inside i j st hst
  obtain ⟨⟨hl, hc⟩, -⟩ := realShape_ge m
  exact ⟨Nat.le_trans hin.1 hl, Nat.le_trans hin.2 hc⟩

theorem Filled.loop : ∀ (fuel : Nat)
    {m m' : Matrix L R E D S}, Filled X st0 m → loop X fuel m = some m' →
    Filled X st0 m' ∧ Stable m' := by
  intro fuel
  induction fuel with
  | zero =>
    intro m m' _ h
    cases h
  | succ fuel ih =>
    intro m m' hm h
    rw [Diffing.loop] at h
    split at h
    · exact ih hm.round h
    · next hshape =>
      cases h
      refine ⟨hm, fun i j st hst => ?_⟩
      obtain ⟨hi, hj⟩ := hm.inside i j st hst
      have := (realShape_ge m).2 i j st hi hj hst
      omega

theorem filled_start (X : FullCore L R E D S) (st0 : FullState L R S) :
    Filled X st0 ((Matrix.make { l := 0, c := 0 }).set 0 0 none 0 st0) := by
  have hcell : ∀ i j st, ((Matrix.make (E := E) (D := D) { l := 0, c := 0 }).set 0 0 none 0
      st0).states i j = some st → (i = 0 ∧ j = 0) ∧ st = st0 := by
    intro i j st hst
    simp only [Matrix.set, Matrix.assign, Matrix.make] at hst
    split at hst
    · next h =>
      cases hst
      exact ⟨h, rfl⟩
    · cases hst
  refine ⟨⟨?_, ?_, ?_⟩, ?_, ?_⟩
  · exact set_states_self _ 0 0 none 0 st0
  · exact fun i j st hst => Or.inl (hcell i j st hst).1
  · intro i j _
    simp [Matrix.set, Matrix.assign, Matrix.make]
  · intro i j hi hj
    have hi0 : i = 0 := Nat.le_zero.mp hi
    have hj0 : j = 0 := Nat.le_zero.mp hj
    exact ⟨fun k _ hk => by omega, fun k _ hk => by omega⟩
  · intro i j st hst
    obtain ⟨⟨rfl, rfl⟩, -⟩ := hcell i j st hst
    exact ⟨Nat.le_refl _, Nat.le_refl _⟩

theorem maybeFinal_iff :
    maybeFinal m i j = true ↔
      ∃ st, m.states i j = some st ∧ st.line.length = i ∧ st.column.length = j := by
  unfold maybeFinal Matrix.shapeAt
  cases m.states i j with
  | none => simp
  | some st => simp

/-- **When the matrix has its final shape, some cell is at the end of both its sequences.** -/
theorem exists_final (hX : Appends X) (hm : Filled X st0 m) (hs : Stable m) :
    ∃ i j, i ≤ m.lines ∧ j ≤ m.columns ∧ maybeFinal m i j = true := by
  -- from a computed cell that is not final, go down or to the right
  suffices h : ∀ (k i j : Nat) (st : FullState L R S), m.lines + m.columns - (i + j) = k →
      m.states i j = some st → ∃ i j, i ≤ m.lines ∧ j ≤ m.columns ∧ maybeFinal m i j = true from
    h _ 0 0 st0 rfl hm.justified.origin
  intro k
  induction k using Nat.strongRecOn with
  | ind k ih =>
    intro i j st hk hst
    obtain ⟨hi, hj⟩ := hm.inside i j st hst
    obtain ⟨hl, hc⟩ := hs i j st hst
    obtain ⟨patch, -, hleads⟩ := hm.justified.walk hX (i + j) i j rfl st hst
    have hil := hleads.line_le
    have hjc := hleads.column_le
    by_cases hlt : i < st.line.length
    · have hsome := (hm.explored (i + 1) j (by omega) hj).1 i st rfl hst hlt
      obtain ⟨st', hst'⟩ := Option.isSome_iff_exists.mp hsome
      exact ih _ (by omega) (i + 1) j st' rfl hst'
    · by_cases hlt' : j < st.column.length
      · have hsome := (hm.explored i (j + 1) hi (by omega)).2 j st rfl hst hlt'
        obtain ⟨st', hst'⟩ := Option.isSome_iff_exists.mp hsome
        exact ih _ (by omega) i (j + 1) st' rfl hst'
      · exact ⟨i, j, hi, hj, maybeFinal_iff.mpr ⟨st, hst, by omega, by omega⟩⟩

/-- The final state is a final cell, unless all of them have the weight `max_int`. -/
theorem selectFinalState_cases (h0 : maybeFinal m 0 0 = false) :
    (∃ i j, selectFinalState m = .ok (i, j) ∧ maybeFinal m i j = true) ∨
    (selectFinalState m = .error .assertFailure ∧
      ∀ i j, i ≤ m.lines → j ≤ m.columns → maybeFinal m i j = true → maxInt ≤ m.weight i j) := by
  have hall := forCells_each (l := m.lines) (c := m.columns)
    (f := fun res i j => if maybeFinal m i j then bestState m res i j else res)
    (fun res : Nat × Nat × Int => res = (0, 0, maxInt) ∨ maybeFinal m res.1 res.2.1 = true)
    (fun res a b => maybeFinal m a b = true → res.2.2 ≤ m.weight a b)
    (s := (0, 0, maxInt)) (.inl rfl) fun i j res _ _ hres _ => by
      split
      · next hf =>
        unfold bestState
        split
        · next hlt => exact ⟨.inr hf, fun _ => Int.le_refl _,
            fun a b _ h hfab => Int.le_trans (Int.le_of_lt hlt) (h hfab)⟩
        · next hge => exact ⟨hres, fun _ => Int.not_lt.mp hge, fun a b _ => id⟩
      · next hf => exact ⟨hres, fun h => absurd h hf, fun a b _ => id⟩
  unfold selectFinalState
  generalize forCells m.lines m.columns _ (0, 0, maxInt) = res at hall
  obtain ⟨hres, hmin⟩ := hall
  rcases hres with rfl | hf
  · exact Or.inr ⟨rfl, hmin⟩
  · refine Or.inl ⟨res.1, res.2.1, if_pos ?_, hf⟩
    -- the origin is no final cell
    by_cases hc : res.1 ≠ 0 ∨ res.2.1 ≠ 0
    · exact hc
    · rw [show res.1 = 0 by omega, show res.2.1 = 0 by omega, h0] at hf
      cases hf

/-! ## The patch -/

/-- The matrix from which the patch is built has a final cell, and all final cells have the weight
`max_int`. -/
def AllTooHeavy (X : FullCore L R E D S) (fuel : Nat) (st0 : FullState L R S) : Prop :=
  ∃ m, computeMatrix X fuel st0 = some m ∧
    (∃ i j, i ≤ m.lines ∧ j ≤ m.columns ∧ maybeFinal m i j = true) ∧
    ∀ i j, i ≤ m.lines → j ≤ m.columns → maybeFinal m i j = true → maxInt ≤ m.weight i j

/-- What `diff` does once `compute_matrix` ends within `fuel` rounds: it returns a patch that can
be replayed, or the assertion of `select_final_state` fails because every candidate has the weight
`max_int`. -/
def DiffOk (X : FullCore L R E D S) (fuel : Nat) (st0 : FullState L R S)
    (res : Except Exn (List (Change L R E D))) : Prop :=
  (∃ patch, res = .ok patch ∧ Replayable X st0 patch) ∨
    (res = .error .assertFailure ∧ AllTooHeavy X fuel st0)

theorem diffWith_ok (hX : Appends X) {fuel : Nat} {state : S} {line : List L} {column : List R}
    (hne : line ≠ [] ∨ column ≠ []) {res : Except Exn (List (Change L R E D))}
    (h : diffWith X fuel state line column = some res) :
    DiffOk X fuel { line, column, state } res := by
  obtain ⟨m, hm, rfl⟩ := Option.map_eq_some_iff.mp h
  obtain ⟨hfilled, hstable⟩ := (filled_start X { line, column, state }).loop fuel hm
  have h0 : maybeFinal m 0 0 = false := by
    cases hf : maybeFinal m 0 0 with
    | false => rfl
    | true =>
      obtain ⟨st, hst, hl, hc⟩ := maybeFinal_iff.mp hf
      rw [hfilled.justified.origin] at hst
      cases hst
      rcases hne with hne | hne
      · exact absurd (eq_nil_of_length_eq_zero hl) hne
      · exact absurd (eq_nil_of_length_eq_zero hc) hne
  unfold constructPatch
  rcases selectFinalState_cases h0 with ⟨i, j, hsel, hf⟩ | ⟨hsel, hheavy⟩
  · obtain ⟨st, hst, hl, hc⟩ := maybeFinal_iff.mp hf
    obtain ⟨patch, hwalk, hleads⟩ := hfilled.justified.walk hX (i + j) i j rfl st hst
    refine Or.inl ⟨patch, ?_, ⟨?_, ?_, hleads.tests⟩⟩
    · rw [hsel]
      show walk m [] i j = .ok patch
      rw [hwalk, append_nil]
    · rw [hleads.replay_eq, hleads.lefts_eq, ← hl, take_length]
    · rw [hleads.replay_eq, hleads.rights_eq, ← hc, take_length]
  · refine Or.inr ⟨?_, m, hm, exists_final hX hfilled hstable, hheavy⟩
    rw [hsel]
    rfl

/-! ## The three interfaces -/

theorem Simple.appends (X : Parameters L R E D S S) : Appends (Simple.internal X) where
  line _ _ := prefix_rfl
  column _ _ := prefix_rfl

theorem prefix_mayAppend (x y : List β) : x <+: mayAppend x y := by
  unfold mayAppend
  split
  · exact prefix_rfl
  · exact prefix_append _ _

theorem LeftVariadic.appends (X : Parameters L R E D S (S × List L)) :
    Appends (LeftVariadic.internal X) where
  line _ _ := prefix_mayAppend _ _
  column _ _ := prefix_rfl

theorem RightVariadic.appends (X : Parameters L R E D S (S × List R)) :
    Appends (RightVariadic.internal X) where
  line _ _ := prefix_rfl
  column _ _ := prefix_mayAppend _ _

/-- A state reached by updates that extend nothing has the initial sequences. -/
theorem Simple.replay_eq (X : Parameters L R E D S S) (patch : List (Change L R E D)) :
    ∀ st : FullState L R S, (replay (Simple.internal X) patch st).line = st.line ∧
      (replay (Simple.internal X) patch st).column = st.column := by
  induction patch with
  | nil => exact fun _ => ⟨rfl, rfl⟩
  | cons d patch ih => exact fun st => ih ((Simple.internal X).update d st)

/-- When nothing is extended, the matrix is filled once. -/
theorem Simple.computeMatrix_eq (X : Parameters L R E D S S) (st0 : FullState L R S)
    (hne : st0.line ≠ [] ∨ st0.column ≠ []) (fuel : Nat) :
    computeMatrix (Simple.internal X) (fuel + 2) st0 =
      some (forCells st0.line.length st0.column.length (computeCell (Simple.internal X))
        (((Matrix.make { l := 0, c := 0 }).set 0 0 none 0 st0).reshape
          { l := st0.line.length, c := st0.column.length })) := by
  let m0 : Matrix L R E D S := (Matrix.make { l := 0, c := 0 }).set 0 0 none 0 st0
  have hshape : m0.realShape = { l := st0.line.length, c := st0.column.length } := by
    have hzero : ∀ n : Nat, (if n > 0 then n else 0) = n := by
      intro n
      split <;> omega
    show Shape.mk (if st0.line.length > 0 then _ else 0)
      (if st0.column.length > 0 then _ else 0) = _
    rw [hzero, hzero]
  have hm0 : Filled (Simple.internal X) st0 m0 := filled_start _ st0
  have hround := hm0.round
  have hstable : Stable (forCells m0.realShape.l m0.realShape.c (computeCell (Simple.internal X))
      (m0.reshape m0.realShape)) := by
    intro i j st hst
    obtain ⟨patch, -, hleads⟩ := hround.justified.walk (Simple.appends X) (i + j) i j rfl st hst
    obtain ⟨hl, hc⟩ := Simple.replay_eq X patch st0
    rw [hleads.replay_eq] at hl hc
    rw [hl, hc]
    rw [(shape_forCells _ _ _ _).1, (shape_forCells _ _ _ _).2]
    exact (realShape_ge m0).2 0 0 st0 (Nat.le_refl _) (Nat.le_refl _) hm0.justified.origin
  have hgrows : st0.line.length > m0.lines ∨ st0.column.length > m0.columns :=
    hne.imp length_pos_iff.mpr length_pos_iff.mpr
  show loop (Simple.internal X) (fuel + 1 + 1) m0 = _
  rw [hshape] at hstable
  rw [loop, hshape]
  rw [if_pos hgrows, loop, realShape_of_stable hstable]
  simp [m0]

/-- **The patches of `diff` can be replayed**, for the three interfaces. The simple one always
ends; for the others, `some res` says that `compute_matrix` ends within `fuel` rounds. -/
theorem diff_replayable (state : S) (line : List L) (column : List R)
    (hne : line ≠ [] ∨ column ≠ []) :
    (∀ X : Parameters L R E D S S,
      (∃ fuel res, Simple.diff X fuel state line column = some res) ∧
      ∀ fuel res, Simple.diff X fuel state line column = some res →
        DiffOk (Simple.internal X) fuel { line, column, state } res) ∧
    (∀ (X : Parameters L R E D S (S × List L)) (fuel : Nat) (res : _),
      LeftVariadic.diff X fuel state line column = some res →
        DiffOk (LeftVariadic.internal X) fuel { line, column, state } res) ∧
    ∀ (X : Parameters L R E D S (S × List R)) (fuel : Nat) (res : _),
      RightVariadic.diff X fuel state line column = some res →
        DiffOk (RightVariadic.internal X) fuel { line, column, state } res := by
  refine ⟨fun X => ⟨?_, ?_⟩, ?_, ?_⟩
  · exact ⟨2, _, congrArg (Option.map constructPatch)
      (Simple.computeMatrix_eq X { line, column, state } hne 0)⟩
  · intro fuel res h
    exact diffWith_ok (Simple.appends X) hne h
  · intro X fuel res h
    exact diffWith_ok (LeftVariadic.appends X) hne h
  · intro X fuel res h
    exact diffWith_ok (RightVariadic.appends X) hne h

/-- Sequences of numbers, compared for equality; a change costs as much as a deletion and an
insertion. -/
def equalNats : Parameters Nat Nat Unit Unit Unit Unit where
  weight
    | .keep .. => 0
    | .change .. => 2
    | _ => 1
  test _ x y := if x = y then .ok () else .error ()
  update _ _ := ()

/-- The same, with the number 3 added to the array that grows when an element is kept. -/
def growing : Parameters Nat Nat Unit Unit Unit (Unit × List Nat) where
  weight := equalNats.weight
  test := equalNats.test
  update
    | .keep .., _ => ((), [3])
    | _, _ => ((), [])

theorem diff_replayable_equalNats :
    (∃ fuel res, Simple.diff equalNats fuel () [1, 2] [2] = some res ∧
      DiffOk (Simple.internal equalNats) fuel ⟨[1, 2], [2], ()⟩ res) ∧
    (∃ res, LeftVariadic.diff growing 4 () [1, 2] [2] = some res ∧
      DiffOk (LeftVariadic.internal growing) 4 ⟨[1, 2], [2], ()⟩ res) ∧
    ∃ res, RightVariadic.diff growing 4 () [1, 2] [2] = some res ∧
      DiffOk (RightVariadic.internal growing) 4 ⟨[1, 2], [2], ()⟩ res := by
  obtain ⟨hsimple, hleft, hright⟩ := diff_replayable () [1, 2] [2] (.inl (cons_ne_nil 1 [2]))
  obtain ⟨⟨fuel, res, h⟩, hok⟩ := hsimple equalNats
  exact ⟨⟨fuel, res, h, hok fuel res h⟩, ⟨_, rfl, hleft growing 4 _ rfl⟩,
    _, rfl, hright growing 4 _ rfl⟩

end TravLang.Diffing
