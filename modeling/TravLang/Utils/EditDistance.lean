import TravLang.Lib.StringAlignment
import TravLang.Stdlib.Array.Basic
import TravLang.Stdlib.Bytes
import TravLang.Stdlib.List.SortUniq

/-!
# The edit distance (`utils/misc.ml`)

`edit_distance` fills the table of the distances of all prefixes, but only along its diagonal. No
sum overflows, as the cutoff is brought down to the length of the longer string. The matrix may be
of any size.
-/

namespace TravLang.Misc

open Arrays Result StringAlignment List

/-! ## The program -/

/-- The values of the variable of a loop `for i = low to high`, where `low` is not negative -/
def forTo (low high : Int) : List Nat := List.range' low.toNat (high + 1 - low).toNat

abbrev Matrix := List (List Int)

/-- `m.(i).(j)` -/
def getCell (m : Matrix) (i j : Nat) : Except Exn Int := do
  get (← get m i) j

/-- `m.(i).(j) <- v` -/
def setCell (m : Matrix) (i j : Nat) (v : Int) : Except Exn Matrix := do
  set m i (← set (← get m i) j v)

/-- `Array.make_matrix`, for dimensions that are not negative -/
def makeMatrix (dimx dimy : Nat) (init : Int) : Matrix :=
  List.replicate dimx (List.replicate dimy init)

/-- The last two letters are the same, the other way round. -/
def swapped (a b : Bytes) (i j : Nat) : Except Exn Bool := do
  if i > 1 && j > 1 then
    if (← get a (i - 1)) = (← get b (j - 2)) then
      return (← get a (i - 2)) = (← get b (j - 1))
    else return false
  else return false

/-- The last value of `best` in the loop -/
def best (a b : Bytes) (m : Matrix) (i j : Nat) : Except Exn Int := do
  let cost : Int := if (← get a (i - 1)) = (← get b (j - 1)) then 0 else 1
  let best := min (1 + min (← getCell m (i - 1) j) (← getCell m i (j - 1)))
    ((← getCell m (i - 1) (j - 1)) + cost)
  if ← swapped a b i j then return min best ((← getCell m (i - 2) (j - 2)) + cost)
  else return best

def editDistance (a b : Bytes) (cutoff : Int) : Except Exn (Option Int) := do
  let la := a.length
  let lb := b.length
  let cutoff := min (max (la : Int) lb) cutoff
  if ((la : Int) - lb).natAbs > cutoff then return none
  else
    let m ← setCell (makeMatrix (la + 1) (lb + 1) (cutoff + 1)) 0 0 0
    let m ← (forTo 1 la).foldlM (fun m i => setCell m i 0 i) m
    let m ← (forTo 1 lb).foldlM (fun m j => setCell m 0 j j) m
    let m ← (forTo 1 la).foldlM (fun m (i : Nat) =>
      (forTo (max 1 (i - cutoff - 1)) (min lb (i + cutoff + 1))).foldlM
        (fun m j => do setCell m i j (← best a b m i j)) m) m
    let result ← getCell m la lb
    if result > cutoff then return none else return some result

/-! ## Matrices -/

/-- The cell at `i` and `j`, for indices in range -/
def cell (m : Matrix) (i j : Nat) : Int := (m.getD i []).getD j 0

def Shape (la lb : Nat) (m : Matrix) : Prop := m.length = la + 1 ∧ ∀ row ∈ m, row.length = lb + 1

variable {la lb i j : Nat} {m : Matrix} {a b : Bytes} {c : Int}

theorem shape_makeMatrix (init : Int) : Shape la lb (makeMatrix (la + 1) (lb + 1) init) := by
  refine ⟨length_replicate, fun row hrow => ?_⟩
  rw [eq_of_mem_replicate hrow, length_replicate]

theorem cell_makeMatrix (init : Int) (hi : i ≤ la) (hj : j ≤ lb) :
    cell (makeMatrix (la + 1) (lb + 1) init) i j = init := by
  simp only [cell, makeMatrix, List.getD_eq_getElem?_getD]
  rw [List.getElem?_replicate_of_lt (by omega), Option.getD_some,
    List.getElem?_replicate_of_lt (by omega), Option.getD_some]

section

variable (h : Shape la lb m) (hi : i ≤ la)

include h hi

theorem Shape.exists_row : ∃ row, m[i]? = some row ∧ row.length = lb + 1 := by
  have hlt : i < m.length := by rw [h.1]; omega
  exact ⟨m[i], List.getElem?_eq_getElem hlt, h.2 _ (getElem_mem hlt)⟩

theorem getCell_eq (hj : j ≤ lb) : getCell m i j = .ok (cell m i j) := by
  obtain ⟨row, hrow, hlen⟩ := h.exists_row hi
  have hget : row[j]? = some row[j] := List.getElem?_eq_getElem (by omega)
  rw [getCell, get_ok hrow, ok_bind, get_ok hget]
  simp only [cell, List.getD_eq_getElem?_getD, hrow, hget, Option.getD_some]

theorem setCell_spec (hj : j ≤ lb) (v : Int) :
    ∃ m', setCell m i j v = .ok m' ∧ Shape la lb m' ∧ cell m' i j = v ∧
      ∀ i' j', (i' ≠ i ∨ j' ≠ j) → cell m' i' j' = cell m i' j' := by
  obtain ⟨row, hrow, hlen⟩ := h.exists_row hi
  have hi' : i < m.length := by rw [h.1]; omega
  have hj' : j < row.length := by omega
  refine ⟨m.set i (row.set j v), ?_, ⟨by rw [length_set, h.1], fun r hr => ?_⟩, ?_, ?_⟩
  · rw [setCell, get_ok hrow, ok_bind, set_ok hj', ok_bind, set_ok hi']
  · rcases mem_or_eq_of_mem_set hr with hr | rfl
    · exact h.2 r hr
    · rw [length_set, hlen]
  · simp only [cell, List.getD_eq_getElem?_getD, List.getElem?_set_self hi', Option.getD_some,
      List.getElem?_set_self hj']
  · intro i' j' hne
    simp only [cell, List.getD_eq_getElem?_getD]
    by_cases hii : i' = i
    · subst hii
      rw [List.getElem?_set_self hi', Option.getD_some, hrow, Option.getD_some,
        List.getElem?_set_ne (by omega)]
    · rw [List.getElem?_set_ne (Ne.symm hii)]

end

/-! ## One cell -/

/-- The cell holds the distance of two prefixes, as far as it does not exceed `c`. -/
def CellOk (a b : Bytes) (c : Int) (m : Matrix) (i j : Nat) : Prop :=
  Entry c (a.take i) (b.take j) (cell m i j)

theorem take_succ_eq {l : Bytes} {x : UInt8} (h : l[i]? = some x) :
    l.take (i + 1) = l.take i ++ [x] := by
  rw [take_add_one, h, Option.toList_some]

/-- A prefix that ends with `y` -/
theorem take_eq_concat {l l' : Bytes} {y : UInt8} (hi : i ≤ l.length) (h : l.take i = l' ++ [y]) :
    0 < i ∧ l' = l.take (i - 1) ∧ l[i - 1]? = some y := by
  cases i with
  | zero => simp at h
  | succ i =>
    have hget : l[i]? = some l[i] := List.getElem?_eq_getElem (by omega)
    rw [take_succ_eq hget] at h
    obtain ⟨h1, h2⟩ := List.append_inj' h rfl
    cases h2
    exact ⟨Nat.succ_pos i, h1.symm, hget⟩

theorem swapped_spec {x y : UInt8} (hx : a[i]? = some x) (hy : b[j]? = some y) :
    ∃ r, swapped a b (i + 1) (j + 1) = .ok r ∧
      (r = true ↔ ∃ a' b', a.take i = a' ++ [y] ∧ b.take j = b' ++ [x]) := by
  have hi : i < a.length := (List.getElem?_eq_some_iff.mp hx).1
  have hj : j < b.length := (List.getElem?_eq_some_iff.mp hy).1
  -- the other letters of the two pairs
  have hends : (∃ a' b', a.take i = a' ++ [y] ∧ b.take j = b' ++ [x]) ↔
      0 < i ∧ 0 < j ∧ a[i - 1]? = some y ∧ b[j - 1]? = some x := by
    constructor
    · rintro ⟨a', b', ha, hb⟩
      obtain ⟨hi0, _, hgeta⟩ := take_eq_concat hi.le ha
      obtain ⟨hj0, _, hgetb⟩ := take_eq_concat hj.le hb
      exact ⟨hi0, hj0, hgeta, hgetb⟩
    · rintro ⟨hi0, hj0, hgeta, hgetb⟩
      refine ⟨a.take (i - 1), b.take (j - 1), ?_, ?_⟩
      · rw [← take_succ_eq hgeta, Nat.sub_add_cancel hi0]
      · rw [← take_succ_eq hgetb, Nat.sub_add_cancel hj0]
  rw [hends]
  unfold swapped
  by_cases h0 : 0 < i ∧ 0 < j
  · obtain ⟨hi0, hj0⟩ := h0
    have hgeta : a[i - 1]? = some a[i - 1] := List.getElem?_eq_getElem (by omega)
    have hgetb : b[j - 1]? = some b[j - 1] := List.getElem?_eq_getElem (by omega)
    rw [if_pos (by simp [hi0, hj0]), show i + 1 - 1 = i from rfl, show j + 1 - 2 = j - 1 by omega,
      show i + 1 - 2 = i - 1 by omega, show j + 1 - 1 = j from rfl, get_ok hx, get_ok hgetb,
      get_ok hgeta, get_ok hy, ok_bind, ok_bind, ok_bind, ok_bind, hgeta, hgetb]
    by_cases hxb : x = b[j - 1]
    · refine ⟨decide (a[i - 1] = y), by rw [if_pos hxb]; rfl, ?_⟩
      simp [hi0, hj0, ← hxb]
    · refine ⟨false, by rw [if_neg hxb]; rfl, ?_⟩
      simp [Ne.symm hxb]
  · refine ⟨false, ?_, ?_⟩
    · rw [if_neg (by simp; omega)]
      rfl
    · simp
      omega

/-- **The value for a cell, from the cells around it** -/
theorem best_spec (hshape : Shape a.length b.length m) (hi : i < a.length) (hj : j < b.length)
    (hm : ∀ i' j', i' ≤ i + 1 → j' ≤ j + 1 → i' ≤ i ∨ j' ≤ j → CellOk a b c m i' j') :
    ∃ v, best a b m (i + 1) (j + 1) = .ok v ∧ Entry c (a.take (i + 1)) (b.take (j + 1)) v := by
  have hx : a[i]? = some a[i] := List.getElem?_eq_getElem hi
  have hy : b[j]? = some b[j] := List.getElem?_eq_getElem hj
  obtain ⟨r, hr, hswap⟩ := swapped_spec hx hy
  have hcost : (if a[i] = b[j] then (0 : Int) else 1) = (mismatch a[i] b[j] : Int) := by
    unfold mismatch
    split <;> rfl
  have hdelete := hm i (j + 1) (by omega) (by omega) (by omega)
  have hinsert := hm (i + 1) j (by omega) (by omega) (by omega)
  have halign := hm i j (by omega) (by omega) (by omega)
  unfold CellOk at hdelete hinsert
  rw [take_succ_eq hy] at hdelete
  rw [take_succ_eq hx] at hinsert
  rw [take_succ_eq hx, take_succ_eq hy]
  unfold best
  simp only [Nat.add_sub_cancel]
  rw [get_ok hx, get_ok hy, ok_bind, ok_bind, getCell_eq hshape (by omega) (by omega), ok_bind,
    getCell_eq hshape (by omega) (by omega), ok_bind, getCell_eq hshape (by omega) (by omega),
    ok_bind, hr, ok_bind, hcost]
  cases r with
  | true =>
    obtain ⟨a', b', ha, hb⟩ := hswap.mp rfl
    have hpair : ∀ a' b', a.take i = a' ++ [b[j]] → b.take j = b' ++ [a[i]] →
        Entry c a' b' (cell m (i - 1) (j - 1)) := by
      intro a' b' ha hb
      obtain ⟨hi0, rfl, _⟩ := take_eq_concat hi.le ha
      obtain ⟨hj0, rfl, _⟩ := take_eq_concat hj.le hb
      exact hm (i - 1) (j - 1) (by omega) (by omega) (by omega)
    rw [if_pos rfl, show i + 1 - 2 = i - 1 by omega, show j + 1 - 2 = j - 1 by omega,
      getCell_eq hshape (by omega) (by omega), ok_bind]
    refine ⟨_, rfl, hdelete.concat hinsert halign (by omega) (fun a' b' ha hb => ?_) ?_⟩
    · exact ⟨_, hpair a' b' ha hb, by omega⟩
    · have hlast := hpair a' b' ha hb
      by_cases hmin : cell m (i - 1) (j - 1) + mismatch a[i] b[j] ≤
          min (1 + min (cell m i (j + 1)) (cell m (i + 1) j)) (cell m i j + mismatch a[i] b[j])
      · exact .inr (.inr (.inr ⟨a', b', _, ha, hb, hlast, by omega⟩))
      · omega
  | false =>
    refine ⟨_, rfl, hdelete.concat hinsert halign (by omega) (fun a' b' ha hb => ?_) (by omega)⟩
    exact absurd (hswap.mpr ⟨a', b', ha, hb⟩) Bool.false_ne_true

/-! ## The loops -/

/-- The cells of the first column, those above the row `i` and those of this row before the column
`j` are right; the others have not been written. -/
structure Table (a b : Bytes) (c : Int) (i j : Nat) (m : Matrix) : Prop where
  shape : Shape a.length b.length m
  ok : ∀ i' j', i' ≤ a.length → j' ≤ b.length → i' < i ∨ j' = 0 ∨ (i' = i ∧ j' < j) →
    CellOk a b c m i' j'
  rest : ∀ i' j', i' ≤ a.length → j' ≤ b.length → i < i' ∨ (i' = i ∧ j ≤ j') → 0 < j' →
    cell m i' j' = c + 1

theorem Table.step (h : Table a b c i j m) (hi0 : 0 < i) (hi : i ≤ a.length) (hj0 : 0 < j)
    (hj : j ≤ b.length) :
    ∃ m', (do setCell m i j (← best a b m i j)) = .ok m' ∧ Table a b c i (j + 1) m' := by
  obtain ⟨i, rfl⟩ : ∃ k, i = k + 1 := ⟨i - 1, by omega⟩
  obtain ⟨j, rfl⟩ : ∃ k, j = k + 1 := ⟨j - 1, by omega⟩
  obtain ⟨v, hbest, hentry⟩ := best_spec h.shape hi hj
    fun i' j' hi' hj' hlt => h.ok i' j' (by omega) (by omega) (by omega)
  obtain ⟨m', hset, hshape, hcell, hother⟩ := setCell_spec h.shape hi hj v
  refine ⟨m', by rw [hbest, ok_bind, hset], hshape, fun i' j' hi' hj' hlt => ?_,
    fun i' j' hi' hj' hge hpos => ?_⟩
  · unfold CellOk
    by_cases heq : i' = i + 1 ∧ j' = j + 1
    · rw [heq.1, heq.2, hcell]
      exact hentry
    · rw [hother i' j' (by omega)]
      exact h.ok i' j' hi' hj' (by omega)
  · rw [hother i' j' (by omega)]
    exact h.rest i' j' hi' hj' (by omega) hpos

/-- Cells far from the diagonal need not be written. -/
theorem Table.skip (h : Table a b c i j m) {k : Nat} (hle : j ≤ k) (hi : i ≤ a.length)
    (hj0 : 0 < j) (hfar : ∀ j', j ≤ j' → j' < k → j' + c < i ∨ i + c < j') :
    Table a b c i k m := by
  refine ⟨h.shape, fun i' j' hi' hj' hlt => ?_,
    fun i' j' hi' hj' hge => h.rest i' j' hi' hj' (by omega)⟩
  by_cases hold : i' < i ∨ j' = 0 ∨ (i' = i ∧ j' < j)
  · exact h.ok i' j' hi' hj' hold
  · obtain rfl : i' = i := by omega
    unfold CellOk
    rw [h.rest i' j' hi' hj' (by omega) (by omega)]
    refine entry_far ?_
    rw [length_take_of_le hi', length_take_of_le hj']
    exact hfar j' (by omega) (by omega)

/-- One row -/
theorem Table.row (h : Table a b c i 1 m) (hi0 : 0 < i) (hi : i ≤ a.length) (hc : 0 ≤ c)
    (hab : a.length ≤ b.length + c) :
    ∃ m', (forTo (max 1 (i - c - 1)) (min b.length (i + c + 1))).foldlM
      (fun m j => do setCell m i j (← best a b m i j)) m = .ok m' ∧ Table a b c (i + 1) 1 m' := by
  have hlow := h.skip (k := (max 1 (i - c - 1)).toNat) (by omega) hi (by omega)
    fun j' hj' hlt => .inl (by omega)
  obtain ⟨m', hrun, hm'⟩ := foldlM_range' (f := fun m j => do setCell m i j (← best a b m i j))
    (I := fun j m => Table a b c i j m) (max 1 (i - c - 1)).toNat
    (min (b.length : Int) (i + c + 1) + 1 - max 1 (i - c - 1)).toNat hlow
    fun j m hj hlt hm => hm.step hi0 hi (by omega) (by omega)
  refine ⟨m', hrun, ?_⟩
  have hhigh := hm'.skip (k := b.length + 1) (by omega) hi (by omega)
    fun j' hj' hlt => .inr (by omega)
  exact ⟨hhigh.shape, fun i' j' hi' hj' hlt => hhigh.ok i' j' hi' hj' (by omega),
    fun i' j' hi' hj' hge => hhigh.rest i' j' hi' hj' (by omega)⟩

/-- A loop that writes `k` into the cell at `p k` and `q k` -/
theorem fill_spec {p q : Nat → Nat} {n : Nat} (hshape : Shape la lb m)
    (hrange : ∀ k ≤ n, p k ≤ la ∧ q k ≤ lb)
    (hinj : ∀ k k', p k = p k' → q k = q k' → k = k') :
    ∃ m', (List.range' 1 n).foldlM (fun m (k : Nat) => setCell m (p k) (q k) k) m = .ok m' ∧
      Shape la lb m' ∧ (∀ k, 0 < k → k ≤ n → cell m' (p k) (q k) = k) ∧
      ∀ i j, (∀ k, 0 < k → i ≠ p k ∨ j ≠ q k) → cell m' i j = cell m i j := by
  obtain ⟨m', hrun, hshape', hwritten, hother⟩ := foldlM_range'
    (f := fun m (k : Nat) => setCell m (p k) (q k) k)
    (I := fun k' m' => Shape la lb m' ∧ (∀ k, 0 < k → k < k' → cell m' (p k) (q k) = k) ∧
      ∀ i j, (∀ k, 0 < k → i ≠ p k ∨ j ≠ q k) → cell m' i j = cell m i j) 1 n (b := m)
    ⟨hshape, fun k hk hlt => by omega, fun i j _ => rfl⟩ (by
      rintro k m' hk hlt ⟨hshape', hwritten, hother⟩
      obtain ⟨m'', hset, hshape'', hcell, hsame⟩ := setCell_spec hshape' (hrange k (by omega)).1
        (hrange k (by omega)).2 k
      refine ⟨m'', hset, hshape'', fun k' hk' hlt' => ?_, fun i j hij => ?_⟩
      · by_cases hkk : k' = k
        · rw [hkk, hcell]
        · rw [hsame _ _ (by have := hinj k' k; omega), hwritten k' hk' (by omega)]
      · rw [hsame i j (hij k hk), hother i j hij])
  exact ⟨m', hrun, hshape', fun k hk hle => hwritten k hk (by omega), hother⟩

/-- The first column and the first row -/
theorem borders_spec (a b : Bytes) (c : Int) :
    ∃ m₁ m₂ m₃, setCell (makeMatrix (a.length + 1) (b.length + 1) (c + 1)) 0 0 0 = .ok m₁ ∧
      (List.range' 1 a.length).foldlM (fun m (i : Nat) => setCell m i 0 i) m₁ = .ok m₂ ∧
      (List.range' 1 b.length).foldlM (fun m (j : Nat) => setCell m 0 j j) m₂ = .ok m₃ ∧
      Table a b c 1 1 m₃ := by
  obtain ⟨m₁, h1, hshape1, hcell1, hother1⟩ := setCell_spec
    (shape_makeMatrix (c + 1)) (Nat.zero_le a.length) (Nat.zero_le b.length) 0
  obtain ⟨m₂, h2, hshape2, hcell2, hother2⟩ := fill_spec (p := fun k => k) (q := fun _ => 0)
    (n := a.length) hshape1 (fun k hk => ⟨hk, Nat.zero_le _⟩) fun k k' h _ => h
  obtain ⟨m₃, h3, hshape3, hcell3, hother3⟩ := fill_spec (p := fun _ => 0) (q := fun k => k)
    (n := b.length) hshape2 (fun k hk => ⟨Nat.zero_le _, hk⟩) fun k k' _ h => h
  have hcolumn : ∀ i ≤ a.length, cell m₃ i 0 = i := by
    intro i hi
    rw [hother3 i 0 (by omega)]
    by_cases hi0 : i = 0
    · rw [hi0, hother2 0 0 (by omega), hcell1]
      rfl
    · exact hcell2 i (by omega) hi
  refine ⟨m₁, m₂, m₃, h1, h2, h3, hshape3, fun i j hi hj hlt => ?_, fun i j hi hj hge hpos => ?_⟩
  · unfold CellOk
    by_cases hj0 : j = 0
    · have := entry_nil_right (c := c) (a.take i)
      rwa [length_take_of_le hi, ← hcolumn i hi, ← hj0, ← take_zero (l := b), ← hj0] at this
    · obtain rfl : i = 0 := by omega
      have := entry_nil_left (c := c) (b.take j)
      rwa [length_take_of_le hj, ← hcell3 j (by omega) hj, ← take_zero (l := a)] at this
  · rw [hother3 i j (by omega), hother2 i j (by omega), hother1 i j (by omega),
      cell_makeMatrix (c + 1) hi hj]

theorem forTo_one (n : Nat) : forTo 1 n = List.range' 1 n := by
  simp [forTo]

/-- **The result of `edit_distance`** -/
theorem editDistance_eq (a b : Bytes) (cutoff : Int) :
    editDistance a b cutoff =
      .ok (if (distance a b : Int) ≤ cutoff then some (distance a b : Int) else none) := by
  have hlen := (turns_distance a b).length_le
  have hmax := distance_le_max a b
  unfold editDistance
  simp only [forTo_one]
  generalize hc : min (max (a.length : Int) b.length) cutoff = c
  have hcutoff : (distance a b : Int) ≤ c ↔ (distance a b : Int) ≤ cutoff := by omega
  simp only [← hcutoff]
  split
  · next hfar =>
    rw [if_neg (by omega)]
    rfl
  · next hnear =>
    obtain ⟨m₁, m₂, m₃, h1, h2, h3, htable⟩ := borders_spec a b c
    obtain ⟨m, hrows, hm⟩ := foldlM_range' (f := fun m (i : Nat) =>
        (forTo (max 1 (i - c - 1)) (min b.length (i + c + 1))).foldlM
          (fun m j => do setCell m i j (← best a b m i j)) m)
      (I := fun i m => Table a b c i 1 m) 1 a.length htable
      fun i m hi hlt hm => hm.row hi (by omega) (by omega) (by omega)
    have hentry : Entry c a b (cell m a.length b.length) := by
      have := hm.ok a.length b.length (Nat.le_refl _) (Nat.le_refl _) (by omega)
      rwa [CellOk, take_length, take_length] at this
    rw [h1, ok_bind, h2, ok_bind, h3, ok_bind, hrows, ok_bind,
      getCell_eq hm.shape (Nat.le_refl _) (Nat.le_refl _), ok_bind]
    split
    · next hgt =>
      have := hentry.lt_distance hgt
      rw [if_neg (by omega)]
      rfl
    · next hle =>
      have heq := hentry.eq_distance (by omega)
      rw [heq, if_pos (by omega)]
      rfl

/-- **`edit_distance` returns the optimal string alignment distance, unless it exceeds the cutoff.**
-/
theorem editDistance_correct (a b : Bytes) (cutoff : Int) :
    (∀ d, editDistance a b cutoff = .ok (some d) ↔ d = distance a b ∧ d ≤ cutoff) ∧
    (editDistance a b cutoff = .ok none ↔ cutoff < distance a b) := by
  rw [editDistance_eq]
  split
  · next hle =>
    refine ⟨fun d => ⟨fun h => ?_, fun h => by rw [h.1]⟩, ⟨nofun, fun h => by omega⟩⟩
    cases h
    exact ⟨rfl, hle⟩
  · next hgt =>
    refine ⟨fun d => ⟨nofun, fun h => by omega⟩, ⟨fun _ => by omega, fun _ => rfl⟩⟩

/-- No letter is edited twice: `ca` does not become `abc` by a swap and an insertion between the two
letters. -/
example : editDistance [0x63, 0x61] [0x61, 0x62, 0x63] 5 = .ok (some 3) := rfl

/-! ## Spell checking -/

def stringCompare (s1 s2 : Bytes) : Int := if s1 < s2 then -1 else if s2 < s1 then 1 else 0

def cutoff (name : Bytes) : Int :=
  match name.length with
  | 1 | 2 => 0
  | 3 | 4 => 1
  | 5 | 6 => 2
  | _ => 3

/-- The local function `compare` of `spellcheck` -/
def closer (target : Bytes) (acc : List Bytes × Int) (head : Bytes) :
    Except Exn (List Bytes × Int) := do
  match ← editDistance target head (cutoff target) with
  | none => return acc
  | some dist =>
    if dist < acc.2 then return ([head], dist)
    else if dist = acc.2 then return (head :: acc.1, dist)
    else return acc

/-- `spellcheck` on a 64-bit host -/
def spellcheck (env : List Bytes) (name : Bytes) : Option (Except Exn (List Bytes)) := do
  let env ← ListSort.sortUniq (fun s1 s2 => stringCompare s2 s1) env
  return Prod.fst <$> env.foldlM (closer name) ([], 2 ^ 62 - 1)

/-- The closest of the names seen, the last one first, and their distance -/
structure Closest (name : Bytes) (seen : List Bytes) (acc : List Bytes × Int) : Prop where
  sublist : acc.1 <+ seen.reverse
  mem : ∀ x, x ∈ acc.1 ↔ x ∈ seen ∧ distance name x ≤ cutoff name ∧ distance name x = acc.2
  least : ∀ x ∈ seen, distance name x ≤ cutoff name → acc.2 ≤ distance name x
  attained : cutoff name < acc.2 ∨ ∃ x, x ∈ acc.1

theorem Closest.step {name : Bytes} {seen : List Bytes} {acc : List Bytes × Int}
    (h : Closest name seen acc) (x : Bytes) :
    ∃ acc', closer name acc x = .ok acc' ∧ Closest name (seen ++ [x]) acc' := by
  obtain ⟨hsub, hmem, hleast, hatt⟩ := h
  rw [closer, editDistance_eq, ok_bind]
  split
  · exact ⟨acc, rfl, by simp [hsub.cons], by grind, by grind, hatt⟩
  · split_ifs
    · exact ⟨_, rfl, by simp, by grind, by grind, by simp⟩
    · exact ⟨_, rfl, by simp [hsub], by grind, by grind, by simp⟩
    · exact ⟨acc, rfl, by simp [hsub.cons], by grind, by grind, hatt⟩

/-- **`spellcheck` returns the closest names, in increasing order**, up to the cutoff. -/
theorem spellcheck_closest (env : List Bytes) (name : Bytes) : ∃ l,
    spellcheck env name = some (.ok l) ∧ l.Pairwise (fun x y => stringCompare x y < 0) ∧
    ∀ x, x ∈ l ↔ x ∈ env ∧ distance name x ≤ cutoff name ∧
      ∀ y ∈ env, distance name x ≤ distance name y := by
  obtain ⟨s, hs, hu⟩ := @ListSort.sortUniq_spec _ (fun s1 s2 => stringCompare s2 s1)
    ⟨by grind [stringCompare], by grind [stringCompare]⟩ env
  have henv : ∀ x ∈ env, x ∈ s := fun x hx => by
    grind [hu.cover x hx, stringCompare]
  obtain ⟨acc, hrun, hsub, hmem, hleast, hatt⟩ := foldlM_rule (b := ([], 2 ^ 62 - 1))
    (I := Closest name) (fun _ x _ _ _ h => h.step x)
    ⟨.slnil, by simp, nofun, .inl (by unfold cutoff; split <;> decide)⟩
  refine ⟨acc.1, ?_, (pairwise_reverse.mpr hu.increasing).sublist hsub, by grind [hu.subset]⟩
  rw [spellcheck, hs]
  exact congrArg (fun r => some (Prod.fst <$> r)) hrun

end TravLang.Misc
