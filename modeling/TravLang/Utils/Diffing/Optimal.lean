import Mathlib.Algebra.Ring.Int.Defs
import TravLang.Utils.Diffing.Replay

/-!
# Optimality of the simple diff

When the test does not depend on the state and nothing is extended, the matrix is filled once, and
each cell has the least weight of the edit scripts between the prefixes it stands for, provided
that no addition of weights leaves the range of integers.
-/

namespace TravLang.Diffing

open List

variable {L R E D S : Type} {X : FullCore L R E D S} {st0 : FullState L R S}
  {m : Matrix L R E D S} {i j : Nat} {patch : List (Change L R E D)} {d : Change L R E D}

/-! ## Edit scripts -/

/-- The edit scripts from the first `i` elements of the line to the first `j` ones of the column:
each change takes the next elements, and a `Keep` or a `Change` is what the test prescribes. -/
inductive EditScript (X : FullCore L R E D S) (st : FullState L R S) :
    Nat → Nat → List (Change L R E D) → Prop
  | nil : EditScript X st 0 0 []
  | concat {i j i' j' : Nat} {d : Change L R E D} {patch : List (Change L R E D)} :
    EditScript X st i j patch → Move X st i j d i' j' → EditScript X st i' j' (patch ++ [d])

def total (weight : Change L R E D → Int) (patch : List (Change L R E D)) : Int :=
  (patch.map weight).sum

@[simp] theorem total_concat (weight : Change L R E D → Int) :
    total weight (patch ++ [d]) = total weight patch + weight d := by
  simp [total]

/-- An edit script of the least weight -/
structure Least (X : FullCore L R E D S) (st : FullState L R S) (i j : Nat)
    (patch : List (Change L R E D)) : Prop where
  script : EditScript X st i j patch
  least : ∀ q, EditScript X st i j q → total X.weight patch ≤ total X.weight q

/-- One change after an edit script of the least weight between prefixes of the sequences has a
total weight in the range of integers, and the least weight between the sequences is not `max_int`.
-/
structure Fits (X : FullCore L R E D S) (st : FullState L R S) : Prop where
  add : ∀ {i j i' j' patch d}, Least X st i j patch → Move X st i j d i' j' →
    -2 ^ 62 ≤ total X.weight (patch ++ [d]) ∧ total X.weight (patch ++ [d]) ≤ maxInt
  ends : ∀ patch, Least X st st.line.length st.column.length patch → total X.weight patch < maxInt

/-- Weights are in range if they are small for the length of the sequences. -/
theorem fits_of_bounded {bound : Nat} (hweight : ∀ d, -bound ≤ X.weight d ∧ X.weight d ≤ bound)
    (hbound : (bound * (st0.line.length + st0.column.length) : Int) < maxInt) : Fits X st0 := by
  have hfit : ∀ i j patch, EditScript X st0 i j patch →
      -2 ^ 62 ≤ total X.weight patch ∧ total X.weight patch < maxInt := by
    intro i j patch h
    have hall : (i ≤ st0.line.length ∧ j ≤ st0.column.length) ∧
        -(bound * (i + j) : Int) ≤ total X.weight patch ∧
        total X.weight patch ≤ bound * (i + j) := by
      induction h with
      | nil => simp [total]
      | @concat i j i' j' d patch _ hmove ih =>
        have hd := hweight d
        have hin : i' ≤ st0.line.length ∧ j' ≤ st0.column.length ∧ i + j < i' + j' := by
          cases hmove <;> grind
        have hle : (bound * (i + j) + bound : Int) ≤ bound * (i' + j') := by
          calc (bound * (i + j) + bound : Int)
              = bound * (i + j + 1) := by rw [Int.mul_add bound (i + j), Int.mul_one]
            _ ≤ bound * (i' + j') :=
              Int.mul_le_mul_of_nonneg_left (by omega) (Int.natCast_nonneg _)
        rw [total_concat]
        omega
    have hle : (bound * (i + j) : Int) ≤ bound * (st0.line.length + st0.column.length) :=
      Int.mul_le_mul_of_nonneg_left (by omega) (Int.natCast_nonneg _)
    unfold maxInt at hbound ⊢
    omega
  exact ⟨fun h hmove => (hfit _ _ _ (h.script.concat hmove)).imp_right Int.le_of_lt,
    fun patch h => (hfit _ _ _ h.script).2⟩

theorem Fits.addInt_eq {i' j' : Nat} (hfits : Fits X st0) (h : Least X st0 i j patch)
    (hmove : Move X st0 i j d i' j') :
    addInt (X.weight d) (total X.weight patch) = total X.weight (patch ++ [d]) := by
  obtain ⟨hlow, hhigh⟩ := hfits.add h hmove
  rw [total_concat] at hlow hhigh ⊢
  rw [addInt, Int.add_comm]
  unfold maxInt at hhigh
  exact Int.bmod_eq_of_le (by omega) (by omega)

/-- The states of the matrix differ only in what the test does not look at. -/
theorem Move.congr (htest : ∀ s s' x y, X.test s x y = X.test s' x y) {st st' : FullState L R S}
    {i' j' : Nat} (h : Move X st i j d i' j') (hl : st'.line = st.line)
    (hc : st'.column = st.column) : Move X st' i j d i' j' := by
  cases h with
  | delete hx => exact .delete (hl ▸ hx)
  | insert hy => exact .insert (hc ▸ hy)
  | keep hx hy hxy => exact .keep (hl ▸ hx) (hc ▸ hy) ((htest ..).trans hxy)
  | change hx hy hxy => exact .change (hl ▸ hx) (hc ▸ hy) ((htest ..).trans hxy)

/-! ## Solved cells -/

/-- The changes recorded on the way to a cell. -/
inductive Trace (X : FullCore L R E D S) (m : Matrix L R E D S) :
    Nat → Nat → List (Change L R E D) → Prop
  | origin : Trace X m 0 0 []
  | step {i j i' j' : Nat} {st : FullState L R S} {d : Change L R E D}
      {patch : List (Change L R E D)} : Trace X m i j patch → Move X st i j d i' j' →
      m.diff i' j' = some d → Trace X m i' j' (patch ++ [d])

theorem Trace.walk (h : Trace X m i j patch) : ∀ acc, walk m acc i j = .ok (patch ++ acc) := by
  induction h with
  | origin => exact fun acc => by rw [Diffing.walk]; simp
  | step _ hmove hdiff ih =>
    intro acc
    rw [walk_step hdiff hmove.next_eq, ih, append_assoc, singleton_append]

theorem Trace.mono {m' : Matrix L R E D S} (h : Trace X m i j patch)
    (hdiff : ∀ a b d, m.diff a b = some d → m'.diff a b = some d) : Trace X m' i j patch := by
  induction h with
  | origin => exact .origin
  | step _ hmove hd ih => exact ih.step hmove (hdiff _ _ _ hd)

/-- The cell has the weight of the edit script recorded for it, which is the least one. -/
structure Solves (X : FullCore L R E D S) (st0 : FullState L R S) (m : Matrix L R E D S)
    (i j : Nat) (st : FullState L R S) (patch : List (Change L R E D)) : Prop where
  state : m.states i j = some st
  line : st.line = st0.line
  column : st.column = st0.column
  trace : Trace X m i j patch
  weight : m.weight i j = total X.weight patch
  least : Least X st0 i j patch

def Solved (X : FullCore L R E D S) (st0 : FullState L R S) (m : Matrix L R E D S) (i j : Nat) :
    Prop :=
  ∃ st patch, Solves X st0 m i j st patch

theorem Matrix.set_diff (hnone : m.diff i j = none) {d' : Option (Change L R E D)} {w : Int}
    {st : FullState L R S} (a b : Nat) (e : Change L R E D) (h : m.diff a b = some e) :
    (m.set i j d' w st).diff a b = some e := by
  have hne : ¬ (a = i ∧ b = j) := by
    rintro ⟨rfl, rfl⟩
    rw [hnone] at h
    cases h
  simp [Matrix.set, Matrix.assign, hne, h]

theorem Solved.set {a b : Nat} (h : Solved X st0 m a b) (hnone : m.diff i j = none)
    (hne : ¬ (a = i ∧ b = j)) (d : Option (Change L R E D)) (w : Int) (st : FullState L R S) :
    Solved X st0 (m.set i j d w st) a b := by
  obtain ⟨s, patch, h⟩ := h
  refine ⟨s, patch,
    { h with state := ?_, trace := h.trace.mono (Matrix.set_diff hnone), weight := ?_ }⟩
  · simpa [Matrix.set, Matrix.assign, hne] using h.state
  · simpa [Matrix.set, Matrix.assign, hne] using h.weight

section

variable (htest : ∀ s s' x y, X.test s x y = X.test s' x y)
  (hupdate : ∀ d st, (X.update d st).line = st.line ∧ (X.update d st).column = st.column)
  (hfits : Fits X st0)

include htest hupdate hfits

/-- A cell with the least weight that the cells before it give is solved if they are. -/
theorem solved_set (hnone : m.diff i j = none)
    (hpred : ∀ a b, Before i j a b → b ≤ j → Solved X st0 m a b) {a b : Nat} {s : FullState L R S}
    (hs : m.states a b = some s) (hmove : Move X s a b d i j)
    (hleast : ∀ a' b' s' e, m.states a' b' = some s' → Move X s' a' b' e i j →
      addInt (X.weight d) (m.weight a b) ≤ addInt (X.weight e) (m.weight a' b')) :
    Solved X st0 (m.set i j (some d) (addInt (X.weight d) (m.weight a b)) (X.update d s)) i j := by
  obtain ⟨hbefore, ha, hb⟩ := hmove.before
  obtain ⟨st, patch, hcell⟩ := hpred a b hbefore hb
  obtain rfl : st = s := by simpa [hs] using hcell.state.symm
  have hmove0 := hmove.congr htest hcell.line.symm hcell.column.symm
  have hnew : addInt (X.weight d) (m.weight a b) = total X.weight (patch ++ [d]) := by
    rw [hcell.weight]
    exact hfits.addInt_eq hcell.least hmove0
  refine ⟨X.update d st, patch ++ [d], set_states_self .., (hupdate d st).1.trans hcell.line,
    (hupdate d st).2.trans hcell.column,
    (hcell.trace.mono (Matrix.set_diff hnone)).step hmove (by simp [Matrix.set, Matrix.assign]),
    by simp [Matrix.set, Matrix.assign, hnew], hcell.least.script.concat hmove0, fun q hq => ?_⟩
  cases hq with
  | nil =>
    unfold Before at hbefore
    omega
  | @concat a' b' _ _ e q hq' hmove' =>
    obtain ⟨hbefore', -, hb'⟩ := hmove'.before
    obtain ⟨st', patch', hcell'⟩ := hpred a' b' hbefore' hb'
    calc total X.weight (patch ++ [d])
        = addInt (X.weight d) (m.weight a b) := hnew.symm
      _ ≤ addInt (X.weight e) (m.weight a' b') :=
        hleast a' b' st' e hcell'.state (hmove'.congr htest hcell'.line hcell'.column)
      _ = total X.weight (patch' ++ [e]) := by
        rw [hcell'.weight]
        exact hfits.addInt_eq hcell'.least hmove'
      _ ≤ total X.weight (q ++ [e]) := by
        have := hcell'.least.least q hq'
        simp only [total_concat]
        omega

/-- **One pass solves all cells.** -/
theorem solved_forCells (horigin : Solved X st0 m 0 0) (hdiff : ∀ i j, m.diff i j = none) :
    ∀ i j, i ≤ st0.line.length → j ≤ st0.column.length →
      Solved X st0 (forCells st0.line.length st0.column.length (computeCell X) m) i j := by
  refine (forCells_each (fun m' : Matrix L R E D S => Solved X st0 m' 0 0 ∧
    ∀ a b, (m'.diff a b).isSome = true → Solved X st0 m' a b) (Solved X st0)
    ⟨horigin, by simp [hdiff]⟩ ?_).2
  rintro i j m' hi hj ⟨h0, hdone⟩ hsolved
  by_cases hset : (m'.diff i j).isSome = true ∨ i = 0 ∧ j = 0
  · have hsame : computeCell X m' i j = m' := by
      rcases hset with hset | ⟨rfl, rfl⟩
      · exact (computeCell_computed X m' i j).2 hset
      · simp [computeCell]
    rw [hsame]
    exact ⟨⟨h0, hdone⟩, hset.elim (hdone i j) fun h => by rwa [h.1, h.2], fun a b _ => id⟩
  · obtain ⟨hnone, hzero⟩ := not_or.mp hset
    rw [Bool.not_eq_true, Option.isSome_eq_false_iff, Option.isNone_iff_eq_none] at hnone
    have hpred : ∀ a b, Before i j a b → b ≤ j → Solved X st0 m' a b :=
      fun a b hab hb => hsolved a b hab (Nat.le_trans hb hj)
    -- the cell above or to the left leads to this one
    obtain ⟨a, b, s, e, hs, he⟩ : ∃ a b s e, m'.states a b = some s ∧ Move X s a b e i j := by
      cases i with
      | succ k =>
        obtain ⟨st, -, hst, hl, -⟩ := hpred k j (.inl k.lt_succ_self) (Nat.le_refl _)
        exact ⟨k, j, st, _, hst, .delete (List.getElem?_eq_getElem (hl ▸ hi))⟩
      | zero =>
        cases j with
        | zero => exact absurd ⟨rfl, rfl⟩ hzero
        | succ k =>
          obtain ⟨st, -, hst, -, hc, -⟩ := hpred 0 k (.inr ⟨rfl, k.lt_succ_self⟩) k.le_succ
          exact ⟨0, k, st, _, hst, .insert (List.getElem?_eq_getElem (hc ▸ hj))⟩
    obtain ⟨a, b, s, d, hs, hmove, hcompute, hleast⟩ := computeCell_least hnone hs he
    have hnew := solved_set htest hupdate hfits hnone hpred hs hmove hleast
    rw [hcompute]
    refine ⟨⟨h0.set hnone (by omega) .., fun a' b' hd => ?_⟩, hnew, fun a' b' hab h => ?_⟩
    · by_cases heq : a' = i ∧ b' = j
      · rwa [heq.1, heq.2]
      · refine (hdone a' b' ?_).set hnone heq ..
        simpa [Matrix.set, Matrix.assign, heq] using hd
    · refine h.set hnone ?_ ..
      unfold Before at hab
      omega

end

/-! ## The patch -/

/-- **The patch of the simple diff has the least weight of all edit scripts**, if no addition leaves
the range of integers and the least weight is not the one that marks an empty cell. -/
theorem simple_diff_optimal (X : Parameters L R E D S S)
    (htest : ∀ s s' x y, X.test s x y = X.test s' x y) (state : S) (line : List L)
    (column : List R) (hne : line ≠ [] ∨ column ≠ [])
    (hfits : Fits (Simple.internal X) { line, column, state }) (fuel : Nat) :
    ∃ patch, Simple.diff X (fuel + 2) state line column = some (.ok patch) ∧
      EditScript (Simple.internal X) { line, column, state } line.length column.length patch ∧
      ∀ q, EditScript (Simple.internal X) { line, column, state } line.length column.length q →
        total X.weight patch ≤ total X.weight q := by
  let st0 : FullState L R S := { line, column, state }
  have hm := Simple.computeMatrix_eq X st0 hne fuel
  obtain ⟨hfilled, -⟩ := (filled_start (Simple.internal X) _).loop _ hm
  have horigin : Solved (Simple.internal X) st0
      (((Matrix.make { l := 0, c := 0 }).set 0 0 none 0 st0).reshape
        { l := line.length, c := column.length }) 0 0 := by
    refine ⟨_, [], rfl, rfl, rfl, .origin, rfl, .nil, fun q hq => ?_⟩
    cases hq with
    | nil => exact Int.le_refl _
    | concat _ hmove => cases hmove
  obtain ⟨st, patch, hst, hl, hc, htrace, hweight, hleast⟩ :=
    solved_forCells (X := Simple.internal X) htest (fun _ _ => ⟨rfl, rfl⟩) hfits horigin
      (by simp [Matrix.reshape, Matrix.set, Matrix.assign, Matrix.make]) _ _ (Nat.le_refl _)
      (Nat.le_refl _)
  refine ⟨patch, ?_, hleast.script, hleast.least⟩
  rw [Simple.diff, diffWith, hm]
  generalize forCells st0.line.length st0.column.length _ _ = m at *
  -- only the last cell is at the end of both sequences
  have hfinal : ∀ i j, maybeFinal m i j = true → i = line.length ∧ j = column.length := by
    intro i j hij
    obtain ⟨st', hst', rfl, rfl⟩ := maybeFinal_iff.mp hij
    obtain ⟨p, -, hleads⟩ := hfilled.justified.walk (Simple.appends X) _ _ _ rfl st' hst'
    obtain ⟨hl, hc⟩ := Simple.replay_eq X p st0
    rw [hleads.replay_eq] at hl hc
    rw [hl, hc]
    exact ⟨rfl, rfl⟩
  have h0 : maybeFinal m 0 0 = false := by
    rw [Bool.eq_false_iff]
    intro hf
    obtain ⟨hl, hc⟩ := hfinal 0 0 hf
    exact hne.elim (· (eq_nil_of_length_eq_zero hl.symm))
      (· (eq_nil_of_length_eq_zero hc.symm))
  rw [Option.map_some, constructPatch]
  rcases selectFinalState_cases h0 with ⟨i, j, hsel, hij⟩ | ⟨-, hheavy⟩
  · obtain ⟨rfl, rfl⟩ := hfinal i j hij
    rw [hsel]
    show some (walk m [] _ _) = _
    rw [htrace.walk, append_nil]
  · obtain ⟨hi, hj⟩ := hfilled.inside _ _ st hst
    have hge := hheavy _ _ hi hj (maybeFinal_iff.mpr ⟨st, hst, by rw [hl], by rw [hc]⟩)
    rw [hweight] at hge
    exact absurd (hfits.ends patch hleast) (Int.not_lt.mpr hge)

theorem simple_diff_optimal_equalNats :
    ∃ patch, Simple.diff equalNats 2 () [1, 2] [2] = some (.ok patch) ∧
      ∀ q, EditScript (Simple.internal equalNats) ⟨[1, 2], [2], ()⟩ 2 1 q →
        total equalNats.weight patch ≤ total equalNats.weight q := by
  have hweight : ∀ d, -(2 : Nat) ≤ equalNats.weight d ∧ equalNats.weight d ≤ (2 : Nat) := by
    rintro (_ | _ | _ | _) <;> simp [equalNats]
  obtain ⟨patch, hdiff, -, hleast⟩ := simple_diff_optimal equalNats (fun _ _ _ _ => rfl) ()
    [1, 2] [2] (.inl (cons_ne_nil 1 [2])) (fits_of_bounded hweight (by decide)) 0
  exact ⟨patch, hdiff, hleast⟩

/-- Weights whose sum is out of range. -/
def heavyNats : Parameters Nat Nat Unit Unit Unit Unit where
  weight
    | .keep .. => 0
    | .change .. => 0
    | _ => 2 ^ 61
  test _ x y := if x = y then .ok () else .error ()
  update _ _ := ()

/-- Two weights that are in range have a negative sum, so that an insertion and a deletion are
preferred to a change that costs nothing. -/
theorem simple_diff_overflows :
    Simple.diff heavyNats 2 () [1] [2] = some (.ok [.insert 2, .delete 1]) ∧
      EditScript (Simple.internal heavyNats) ⟨[1], [2], ()⟩ 1 1 [.change 1 2 ()] ∧
      total heavyNats.weight [.change 1 2 ()] < total heavyNats.weight [.insert 2, .delete 1] := by
  refine ⟨?_, EditScript.nil.concat (.change rfl rfl rfl), by decide⟩
  obtain ⟨m, hm⟩ : ∃ m, computeMatrix (Simple.internal heavyNats) 2 ⟨[1], [2], ()⟩ = some m :=
    ⟨_, rfl⟩
  have hcells : (computeMatrix (Simple.internal heavyNats) 2 ⟨[1], [2], ()⟩).map
        (fun m => (m.diff 1 1, m.diff 0 1, selectFinalState m)) =
      some (some (.delete 1), some (.insert 2), .ok (1, 1)) := rfl
  rw [hm] at hcells
  obtain ⟨h11, h01, hsel⟩ : m.diff 1 1 = some (.delete 1) ∧ m.diff 0 1 = some (.insert 2) ∧
      selectFinalState m = .ok (1, 1) := by
    simpa using hcells
  rw [Simple.diff, diffWith, hm, Option.map_some, constructPatch, hsel]
  have hwalk : walk m [] 1 1 = walk m [.insert 2, .delete 1] 0 0 :=
    (walk_step h11 rfl []).trans (walk_step h01 rfl [.delete 1])
  show some (walk m [] 1 1) = _
  rw [hwalk, walk]
  rfl

end TravLang.Diffing
