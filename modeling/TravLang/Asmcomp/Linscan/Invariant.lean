import TravLang.Asmcomp.Linscan.Basic

/-!
# The invariant of the scan

At a position of the scan, an interval that has a hardware register is in one of the sets of its
class, or it has ended before the position. Trimming only removes positions that the scan has
reached, and two intervals of the sets with the same register share none of the remaining ones.
-/

namespace TravLang.Linscan

open TravLang.Asmcomp List
open TravLang.Interval (Sorted Covers filterRanges overlapRanges_iff isLiveInRanges_iff)
open SortedAssoc (TotalOrder TotalPreorder)
open Map (PhysEq intCompare)

/-! ## Orders and sets -/

theorem compare_neg_iff (i j : Elt) :
    compare i j < 0 ↔ i.iend < j.iend ∨ i.iend = j.iend ∧ i.stamp < j.stamp := by
  unfold compare intCompare
  rcases Int.lt_trichotomy i.iend j.iend with hlt | heq | hgt
  · simp [hlt]
  · rcases Int.lt_trichotomy i.stamp j.stamp with hlt | heq' | hgt
    · simp [heq, hlt]
    · simp [heq, heq']
    · simp [heq, hgt, Int.not_lt.mpr (Int.le_of_lt hgt)]
  · simp [hgt, Int.not_lt.mpr (Int.le_of_lt hgt), Int.ne_of_gt hgt]

theorem compare_swap (i j : Elt) : compare j i = -compare i j := by
  unfold compare intCompare
  grind

theorem compare_pos_iff (i j : Elt) : 0 < compare i j ↔ compare j i < 0 := by
  rw [compare_swap i j, Int.neg_neg_iff_pos]

theorem totalOrder_compare : TotalOrder compare where
  neg_iff i j := (compare_pos_iff j i).symm
  trans i j k hij hjk := by
    rw [← Int.not_lt, compare_pos_iff, compare_neg_iff] at hij hjk ⊢
    omega
  eq_of_zero i j h := by
    have hneg := (compare_neg_iff i j).not.mp (by omega)
    have hpos := ((compare_pos_iff i j).trans (compare_neg_iff j i)).not.mp (by omega)
    obtain ⟨iend, stamp⟩ := i
    obtain ⟨jend, stamp'⟩ := j
    dsimp only at hneg hpos
    obtain rfl : iend = jend := by omega
    obtain rfl : stamp = stamp' := by omega
    rfl

theorem totalOrder_slotCompare : TotalOrder slotCompare where
  neg_iff m n := Map.totalOrder_intCompare.neg_iff m n
  trans l m n := Map.totalOrder_intCompare.trans l m n
  eq_of_zero m n h := Int.ofNat.inj (Map.totalOrder_intCompare.eq_of_zero m n h)

/-- A set operation that succeeds -/
theorem ofSet_gives {κ : Type} {cmp : κ → κ → Int} {res : Except Map.Exn (Set.T κ)} {P : κ → Prop}
    (h : Set.Gives cmp res P) :
    ∃ t, ofSet res = .ok t ∧ Set.WellFormed cmp t ∧ ∀ x, x ∈ t.toList ↔ P x := by
  obtain ⟨t, rfl, hw, hmem⟩ := h
  exact ⟨t, rfl, hw, hmem⟩

variable {proc : Proc} {s : IntervalSet} {pos pos' : Int} {table : Int → Interval.T}
  {intervals fixed done : List Int} {st st' : State proc}

/-- The divider lies between the intervals that have ended before `pos` and the others. -/
theorem splitByPos_spec (pos : Int) (hs : Set.WellFormed compare s)
    (hstamp : ∀ e ∈ s.toList, 0 ≤ e.stamp) :
    ∃ before after, splitByPos s pos = .ok (before, after) ∧
      Set.WellFormed compare before ∧ Set.WellFormed compare after ∧
      (∀ e, e ∈ before.toList ↔ e ∈ s.toList ∧ e.iend < pos) ∧
      ∀ e, e ∈ after.toList ↔ e ∈ s.toList ∧ pos ≤ e.iend := by
  obtain ⟨before, pres, after, hsplit, hat, hpres⟩ :=
    Set.split_spec totalOrder_compare ⟨pos, -1⟩ hs
  have hnot : pres = false := by
    cases pres with
    | false => rfl
    | true =>
      have := hstamp _ (hpres.mp rfl)
      dsimp only at this
      omega
  refine ⟨before, after, ?_, hat.left, hat.right, fun e => ?_, fun e => ?_⟩
  · rw [splitByPos, hsplit, hnot]
    rfl
  · rw [hat.mem_left]
    refine and_congr_right fun he => ?_
    have := hstamp e he
    rw [compare_neg_iff]
    dsimp only
    omega
  · rw [hat.mem_right]
    refine and_congr_right fun he => ?_
    have := hstamp e he
    rw [compare_neg_iff]
    dsimp only
    omega

/-! ## Problems -/

/-- What the allocator is given: intervals of distinct registers, with ranges in order; the
intervals to allocate have no hardware register, and are ordered by their start. -/
structure Problem (proc : Proc) (table : Int → Interval.T) (intervals fixed : List Int) :
    Prop where
  nodup : (fixed ++ intervals).Nodup
  stamp : ∀ i ∈ fixed ++ intervals, 0 ≤ i
  sorted : ∀ i ∈ fixed ++ intervals, Sorted (table i).ranges
  within : ∀ i ∈ fixed ++ intervals, ∀ r ∈ (table i).ranges,
    (table i).ibegin ≤ r.rbegin ∧ r.rend ≤ (table i).iend
  ordered : intervals.Pairwise fun i j => (table i).ibegin ≤ (table j).ibegin
  fixedLoc : ∀ i ∈ fixed, ∃ k : Nat, (table i).loc =
    .reg (proc.firstAvailableRegister (proc.registerClass (table i).typ) + k)
  noReg : ∀ i ∈ intervals, ∀ k, (table i).loc ≠ .reg k

/-- The positions of the intervals have two consecutive ones in common. -/
def Clash (i j : Interval.T) : Prop :=
  ∃ p, (Covers i.ranges p ∧ Covers i.ranges (p + 1)) ∧ Covers j.ranges p ∧ Covers j.ranges (p + 1)

theorem Clash.symm {i j : Interval.T} (h : Clash i j) : Clash j i := by
  obtain ⟨p, hi, hj⟩ := h
  exact ⟨p, hj, hi⟩

namespace Problem

variable {i : Int}

section

variable (hp : Problem proc table intervals fixed) {p : Int}

include hp

theorem not_mem_fixed (hi : i ∈ intervals) :
    i ∉ fixed := fun hf => (nodup_append.mp hp.nodup).2.2 i hf i hi rfl

/-- No position comes before the start. -/
theorem ibegin_le (hi : i ∈ fixed ++ intervals) (h : Covers (table i).ranges p) :
    (table i).ibegin ≤ p := by
  obtain ⟨r, hr, hle, -⟩ := h
  have := (hp.within i hi r hr).1
  omega

theorem le_iend (hi : i ∈ fixed ++ intervals) (h : Covers (table i).ranges p) :
    p ≤ (table i).iend := by
  obtain ⟨r, hr, -, hle⟩ := h
  have := (hp.within i hi r hr).2
  omega

end

end Problem

/-! ## The invariant -/

/-- The class of the register with a stamp -/
def classOf (proc : Proc) (table : Int → Interval.T) (i : Int) : Fin proc.numRegisterClasses :=
  proc.registerClass (table i).typ

/-- The handle of an interval -/
def handle (table : Int → Interval.T) (i : Int) : Elt := ⟨(table i).iend, i⟩

/-- The intervals of a class that may keep a register from others -/
def Held (ci : ClassIntervals) (e : Elt) : Prop :=
  e ∈ ci.fixed.toList ∨ e ∈ ci.active.toList ∨ e ∈ ci.inactive.toList

/-- The sets of a class: `done` are the intervals that the scan has met. -/
structure ClassOk (proc : Proc) (table : Int → Interval.T) (fixed done : List Int)
    (now : Int → Interval.T) (cl : Fin proc.numRegisterClasses) (ci : ClassIntervals) : Prop where
  wfFixed : Set.WellFormed compare ci.fixed
  wfActive : Set.WellFormed compare ci.active
  wfInactive : Set.WellFormed compare ci.inactive
  wfSpilled : Set.WellFormed compare ci.spilled
  wfFree : Set.WellFormed slotCompare ci.freeSlots
  fixedMem : ∀ e ∈ ci.fixed.toList,
    e.stamp ∈ fixed ∧ classOf proc table e.stamp = cl ∧ e = handle table e.stamp
  walkedMem : ∀ e, e ∈ ci.active.toList ∨ e ∈ ci.inactive.toList →
    (e.stamp ∈ done ∧ classOf proc table e.stamp = cl ∧ e = handle table e.stamp) ∧
      ∃ k : Nat, (now e.stamp).loc = .reg (proc.firstAvailableRegister cl + k)
  spilledMem : ∀ e ∈ ci.spilled.toList,
    (e.stamp ∈ done ∧ classOf proc table e.stamp = cl) ∧
      ∃ ss, (now e.stamp).loc = .stack (.local ss)
  disjoint : ∀ e ∈ ci.active.toList, e ∉ ci.inactive.toList

/-- Intervals with the same register share none of the positions that are left. -/
def Apart (fixed : List Int) (now : Int → Interval.T) (ci : ClassIntervals) : Prop :=
  ∀ e e', Held ci e → Held ci e' → e.stamp ≠ e'.stamp → ¬(e.stamp ∈ fixed ∧ e'.stamp ∈ fixed) →
    ∀ k, (now e.stamp).loc = .reg k → (now e'.stamp).loc = .reg k →
      ∀ p, Covers (now e.stamp).ranges p → ¬Covers (now e'.stamp).ranges p

/-- What the scan has done to an interval at position `pos`: its location may have changed, and it
may have lost positions that are not after `pos`. -/
structure Trimmed (pos : Int) (old new : Interval.T) : Prop where
  typ : new.typ = old.typ
  ibegin : new.ibegin = old.ibegin
  iend : new.iend = old.iend
  sorted : Sorted old.ranges → Sorted new.ranges
  sub : ∀ p, Covers new.ranges p → Covers old.ranges p
  keep : ∀ p, pos < p → Covers old.ranges p → Covers new.ranges p

theorem Trimmed.refl (pos : Int) (i : Interval.T) : Trimmed pos i i :=
  ⟨rfl, rfl, rfl, id, fun _ => id, fun _ _ => id⟩

theorem Trimmed.trans {i j k : Interval.T} (h : Trimmed pos i j) (h' : Trimmed pos j k) :
    Trimmed pos i k :=
  ⟨h'.typ.trans h.typ, h'.ibegin.trans h.ibegin, h'.iend.trans h.iend, h'.sorted ∘ h.sorted,
    fun p hp => h.sub p (h'.sub p hp), fun p hlt hp => h'.keep p hlt (h.keep p hlt hp)⟩

theorem Trimmed.mono {i j : Interval.T} (h : Trimmed pos i j) (hle : pos ≤ pos') :
    Trimmed pos' i j :=
  ⟨h.typ, h.ibegin, h.iend, h.sorted, h.sub, fun p hlt => h.keep p (by omega)⟩

theorem trimmed_removeExpiredRanges (pos : Int) (i : Interval.T) :
    Trimmed pos i (Interval.removeExpiredRanges i pos) :=
  ⟨rfl, rfl, rfl, fun h => h.filterRanges pos, fun _ => Interval.covers_of_filterRanges,
    fun _ hlt hp => Interval.covers_filterRanges hp hlt⟩

theorem trimmed_loc (pos : Int) (i : Interval.T) (loc : Location) (spill : Bool) :
    Trimmed pos i { i with loc, spill } :=
  ⟨rfl, rfl, rfl, id, fun _ => id, fun _ _ => id⟩

/-- What holds when the scan has met the intervals `done` and is at position `pos`. -/
structure Inv (proc : Proc) (table : Int → Interval.T) (intervals fixed done : List Int) (pos : Int)
    (st : State proc) : Prop where
  doneMem : ∀ i ∈ done, i ∈ intervals
  trimmed : ∀ i, Trimmed pos (table i) (st.intervals i)
  fresh : ∀ i ∈ intervals, i ∉ done → st.intervals i = table i
  fixedLoc : ∀ i ∈ fixed, (st.intervals i).loc = (table i).loc
  classOk : ∀ cl, ClassOk proc table fixed done st.intervals cl (st.active cl)
  apart : ∀ cl, Apart fixed st.intervals (st.active cl)
  held : ∀ i ∈ fixed ++ done, ∀ k, (st.intervals i).loc = .reg k →
    Held (st.active (classOf proc table i)) (handle table i) ∨ (table i).iend < pos
  noClash : ∀ i ∈ fixed ++ done, ∀ j ∈ fixed ++ done, i ≠ j → ¬(i ∈ fixed ∧ j ∈ fixed) →
    classOf proc table i = classOf proc table j →
    ∀ k, (st.intervals i).loc = .reg k → (st.intervals j).loc = .reg k → ¬Clash (table i) (table j)

namespace Inv

section

variable (h : Inv proc table intervals fixed done pos st)

include h

theorem mem_all {i : Int} (hi : i ∈ fixed ++ done) : i ∈ fixed ++ intervals := by
  rcases mem_append.mp hi with hi | hi
  · exact mem_append_left _ hi
  · exact mem_append_right _ (h.doneMem i hi)

/-- The scan goes on to a later position. -/
theorem mono (hle : pos ≤ pos') : Inv proc table intervals fixed done pos' st :=
  { h with
    trimmed := fun i => (h.trimmed i).mono hle
    held := fun i hi k hk => (h.held i hi k hk).imp id fun hlt => by omega }

theorem registerClass_eq (i : Int) : registerClass st i = classOf proc table i := by
  rw [registerClass, classOf, (h.trimmed i).typ]

theorem elt_eq (i : Int) : st.elt i = handle table i := by
  rw [State.elt, handle, (h.trimmed i).iend]

theorem sorted (hp : Problem proc table intervals fixed) {i : Int} (hi : i ∈ fixed ++ intervals) :
    Sorted (st.intervals i).ranges := (h.trimmed i).sorted (hp.sorted i hi)

end

variable {e : Elt} {cl : Fin proc.numRegisterClasses}

section

variable (h : Inv proc table intervals fixed done pos st)

include h

theorem held_mem (he : Held (st.active cl) e) :
    e.stamp ∈ fixed ++ done ∧ classOf proc table e.stamp = cl ∧ e = handle table e.stamp := by
  rcases he with he | he
  · obtain ⟨hmem, hcl, he⟩ := (h.classOk cl).fixedMem e he
    exact ⟨mem_append_left _ hmem, hcl, he⟩
  · obtain ⟨⟨hmem, hcl, he⟩, -⟩ := (h.classOk cl).walkedMem e he
    exact ⟨mem_append_right _ hmem, hcl, he⟩

section

variable (hp : Problem proc table intervals fixed) (he : Held (st.active cl) e)

include hp he

theorem stamp_nonneg : 0 ≤ e.stamp :=
  hp.stamp _ (h.mem_all (h.held_mem he).1)

/-- An interval in a set has a register of its class. -/
theorem held_reg :
    ∃ k : Nat, (st.intervals e.stamp).loc = .reg (proc.firstAvailableRegister cl + k) := by
  rcases he with he | he
  · obtain ⟨hmem, hcl, -⟩ := (h.classOk cl).fixedMem e he
    obtain ⟨k, hk⟩ := hp.fixedLoc e.stamp hmem
    rw [← hcl, h.fixedLoc e.stamp hmem]
    exact ⟨k, hk⟩
  · exact ((h.classOk cl).walkedMem e he).2

end

end

end Inv

end TravLang.Linscan
